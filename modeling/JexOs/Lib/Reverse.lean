import Mathlib.Data.List.Basic

/-!
# Reversing in place

The loop that exchanges the ends of an array and goes on with what is between them.
-/

namespace Reverse

open List

variable {α : Type}

/-- Exchanges the elements at `start` and `stop` and moves both inwards, until they meet. -/
def swapLoop (default : α) : (fuel start stop : Nat) → List α → List α
  | 0, _, _, xs => xs
  | fuel + 1, start, stop, xs =>
    if start < stop then
      swapLoop default fuel (start + 1) (stop - 1)
        ((xs.set start (xs.getD stop default)).set stop (xs.getD start default))
    else xs

theorem swap_eq (default : α) (before inner after : List α) (a b : α) :
    let xs := before ++ a :: (inner ++ b :: after)
    let stop := before.length + (inner.length + 1)
    (xs.set before.length (xs.getD stop default)).set stop (xs.getD before.length default) =
      before ++ b :: (inner ++ a :: after) := by
  intro xs stop
  have hfirst : xs.getD before.length default = a := by
    simp [xs]
  have hlast : xs.getD stop default = b := by
    have hget : xs[stop]? = some b := by
      rw [getElem?_append_right (Nat.le_add_right _ _), Nat.add_sub_cancel_left, getElem?_cons_succ,
        getElem?_append_right (Nat.le_refl _), Nat.sub_self]
      rfl
    rw [getD_eq_getElem?_getD, hget]
    rfl
  rw [hfirst, hlast, set_append_right _ _ (Nat.le_refl _), Nat.sub_self, set_cons_zero,
    set_append_right _ _ (Nat.le_add_right _ _), Nat.add_sub_cancel_left, set_cons_succ,
    set_append_right _ _ (Nat.le_refl _), Nat.sub_self]
  rfl

theorem swapLoop_between (default : α) {fuel : Nat} (before middle after : List α)
    (hfuel : middle.length ≤ fuel) :
    swapLoop default fuel before.length (before.length + middle.length - 1) (before ++ middle ++ after) =
      before ++ middle.reverse ++ after := by
  induction fuel generalizing before middle after with
  | zero =>
    obtain rfl := eq_nil_of_length_eq_zero (Nat.le_zero.mp hfuel)
    rfl
  | succ fuel ih =>
    rw [swapLoop]
    by_cases hmeet : before.length < before.length + middle.length - 1
    · rw [if_pos hmeet]
      obtain ⟨a, rest, rfl⟩ := exists_cons_of_length_pos (show 0 < middle.length by omega)
      rw [length_cons] at hfuel hmeet
      obtain ⟨inner, b, rfl⟩ := (eq_nil_or_concat' rest).resolve_left fun h => by
        rw [h, length_nil] at hmeet
        omega
      rw [length_append, length_singleton] at hfuel
      have hstop : before.length + (a :: (inner ++ [b])).length - 1 = before.length + (inner.length + 1) := by
        rw [length_cons, length_append]
        rfl
      have hlist : before ++ a :: (inner ++ [b]) ++ after = before ++ a :: (inner ++ b :: after) := by
        rw [append_assoc, cons_append, append_assoc]
        rfl
      have hnext := ih (before ++ [b]) inner (a :: after) (by omega)
      rw [length_append, length_singleton] at hnext
      have hnext_stop : before.length + 1 + inner.length - 1 = before.length + (inner.length + 1) - 1 := by
        omega
      have hswapped : before ++ [b] ++ inner ++ a :: after = before ++ b :: (inner ++ a :: after) := by
        rw [append_assoc, append_assoc]
        rfl
      rw [hswapped, hnext_stop] at hnext
      rw [hstop, hlist, swap_eq]
      refine hnext.trans ?_
      rw [reverse_cons, reverse_append, append_assoc, append_assoc, append_assoc,
        append_assoc]
      rfl
    · rw [if_neg hmeet]
      rcases middle with _ | ⟨a, _ | ⟨b, rest⟩⟩
      · rfl
      · rfl
      · rw [length_cons, length_cons] at hmeet
        omega

theorem swapLoop_eq_reverse (default : α) (xs : List α) :
    swapLoop default xs.length 0 (xs.length - 1) xs = xs.reverse := by
  have h := swapLoop_between default [] xs [] (Nat.le_refl _)
  rw [nil_append, append_nil, nil_append, append_nil, length_nil, Nat.zero_add] at h
  exact h

end Reverse
