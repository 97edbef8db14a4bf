import Mathlib.Algebra.BigOperators.Group.List.Basic
import Mathlib.Algebra.GroupWithZero.Nat

/-!
# Records packed one behind another

Records of different sizes lie in a memory, each where the one before it ends.
-/

/-- How a record is laid out: the cells it takes, and what they hold. -/
structure Format (α β : Type) where
  size : α → Nat
  cell : α → Nat → β

namespace Format

variable {α β : Type} (F : Format α β)

def span (es : List α) : Nat := (es.map F.size).sum

def Stored (m : Nat → β) : Nat → List α → Prop
  | _, [] => True
  | a, e :: es => (∀ k, k < F.size e → m (a + k) = F.cell e k) ∧ Stored m (a + F.size e) es

@[simp] theorem span_nil : F.span [] = 0 := rfl

@[simp] theorem span_cons (e : α) (es : List α) : F.span (e :: es) = F.size e + F.span es := rfl

@[simp] theorem span_append (xs ys : List α) : F.span (xs ++ ys) = F.span xs + F.span ys := by
  unfold span
  rw [List.map_append, List.sum_append]

variable {F} {m m' : Nat → β} {a : Nat} {e e' : α} {xs ys es : List α}

theorem stored_append : F.Stored m a (xs ++ ys) ↔ F.Stored m a xs ∧ F.Stored m (a + F.span xs) ys := by
  induction xs generalizing a with
  | nil => exact ⟨fun h => ⟨trivial, h⟩, And.right⟩
  | cons x xs ih =>
    simp only [List.cons_append, Stored, span_cons, ih, ← Nat.add_assoc, and_assoc]

theorem Stored.congr (h : F.Stored m a es)
    (hsame : ∀ k, a ≤ k → k < a + F.span es → m' k = m k) : F.Stored m' a es := by
  induction es generalizing a with
  | nil => trivial
  | cons e es ih =>
    obtain ⟨hhead, htail⟩ := h
    rw [span_cons] at hsame
    refine ⟨fun k hk => ?_, ih htail fun k hk hk' => hsame k (by omega) (by omega)⟩
    rw [hsame (a + k) (by omega) (by omega), hhead k hk]

theorem Stored.middle (h : F.Stored m a (xs ++ e :: ys)) {k : Nat} (hk : k < F.size e) :
    m (a + F.span xs + k) = F.cell e k :=
  (stored_append.mp h).2.1 k hk

theorem Stored.replace (h : F.Stored m a (xs ++ e :: ys)) (hsize : F.size e' = F.size e)
    (hnew : ∀ k, k < F.size e' → m' (a + F.span xs + k) = F.cell e' k)
    (hsame : ∀ k, a ≤ k → k < a + F.span xs ∨ a + F.span xs + F.size e ≤ k → m' k = m k) :
    F.Stored m' a (xs ++ e' :: ys) := by
  obtain ⟨hbefore, -, hbehind⟩ := stored_append.mp h
  refine stored_append.mpr ⟨hbefore.congr fun k hk hk' => hsame k hk (.inl hk'), hnew, ?_⟩
  rw [hsize]
  exact hbehind.congr fun k hk _ => hsame k (by omega) (.inr hk)

theorem Stored.append (h : F.Stored m a es) (hnew : ∀ k, k < F.size e → m' (a + F.span es + k) = F.cell e k)
    (hsame : ∀ k, a ≤ k → k < a + F.span es → m' k = m k) : F.Stored m' a (es ++ [e]) :=
  stored_append.mpr ⟨h.congr hsame, hnew, trivial⟩

end Format
