import Mathlib.Logic.Relation

/-!
# Loops that may fail

A loop is a body that goes round again, leaves with a result, or fails. It is run with fuel; one that uses up its
fuel counts as stuck.
-/

namespace Loop

variable {σ ρ ε : Type}

inductive Pass (σ ρ : Type) where
  | again (s : σ)
  | leave (r : ρ)

def run (stuck : ε) (body : σ → Except ε (Pass σ ρ)) : Nat → σ → Except ε ρ
  | 0, _ => .error stuck
  | fuel + 1, s =>
    match body s with
    | .error e => .error e
    | .ok (.leave r) => .ok r
    | .ok (.again s') => run stuck body fuel s'

def Reach (body : σ → Except ε (Pass σ ρ)) : σ → σ → Prop :=
  Relation.ReflTransGen fun s t => body s = .ok (.again t)

theorem bind_eq_ok {α β : Type} {x : Except ε α} {f : α → Except ε β} {b : β} :
    x >>= f = .ok b ↔ ∃ a, x = .ok a ∧ f a = .ok b := by
  cases x with
  | error e =>
    refine ⟨fun h => ?_, fun ⟨a, h, _⟩ => ?_⟩
    · cases h
    · cases h
  | ok a =>
    refine ⟨fun h => ⟨a, rfl, h⟩, fun ⟨a', h, hf⟩ => ?_⟩
    cases h
    exact hf

variable {stuck : ε} {body body' : σ → Except ε (Pass σ ρ)} {t s : σ} {r : ρ} {n : Nat} {P : σ → Prop}

theorem run_again (h : body s = .ok (.again t)) (n : Nat) : run stuck body (n + 1) s = run stuck body n t := by
  simp only [run, h]

theorem run_leave (h : body s = .ok (.leave r)) (n : Nat) : run stuck body (n + 1) s = .ok r := by
  simp only [run, h]

/-- A loop that goes along a list. -/
theorem run_along {α : Type} {l : List α} (state : List α → List α → σ)
    (hagain : ∀ pre x post, l = pre ++ x :: post →
      body (state pre (x :: post)) = .ok (.again (state (pre ++ [x]) post)))
    (hleave : body (state l []) = .ok (.leave r)) (hfuel : l.length < n) :
    run stuck body n (state [] l) = .ok r := by
  suffices h : ∀ pre post n, l = pre ++ post → post.length < n →
      run stuck body n (state pre post) = .ok r from h [] l n rfl hfuel
  intro pre post
  induction post generalizing pre with
  | nil =>
    intro n hl hn
    obtain ⟨n, rfl⟩ := Nat.exists_eq_succ_of_ne_zero (Nat.ne_zero_of_lt hn)
    rw [List.append_nil] at hl
    exact run_leave (hl ▸ hleave) n
  | cons x post ih =>
    intro n hl hn
    obtain ⟨n, rfl⟩ := Nat.exists_eq_succ_of_ne_zero (Nat.ne_zero_of_lt hn)
    rw [run_again (hagain pre x post hl)]
    exact ih (pre ++ [x]) n (by rw [hl, List.append_assoc]; rfl) (Nat.lt_of_succ_lt_succ hn)

theorem run_ok (h : run stuck body n s = .ok r) :
    ∃ t, Reach body s t ∧ body t = .ok (.leave r) ∧ ∀ u, Reach body s u → Reach body u t := by
  induction n generalizing s with
  | zero => cases h
  | succ n ih =>
    cases hbody : body s with
    | error e =>
      rw [run, hbody] at h
      cases h
    | ok p =>
      cases p with
      | leave r' =>
        rw [run_leave hbody] at h
        cases h
        refine ⟨s, .refl, hbody, fun u hu => ?_⟩
        obtain rfl | ⟨t, hst, -⟩ := Relation.ReflTransGen.cases_head hu
        · exact .refl
        · rw [hbody] at hst
          cases hst
      | again s' =>
        rw [run_again hbody] at h
        obtain ⟨t, hreach, hleave, hall⟩ := ih h
        refine ⟨t, .head hbody hreach, hleave, fun u hu => ?_⟩
        obtain rfl | ⟨t', hst, htu⟩ := Relation.ReflTransGen.cases_head hu
        · exact .head hbody hreach
        · rw [hbody] at hst
          cases hst
          exact hall u htu

theorem reach_invariant (hstep : ∀ s t, P s → body s = .ok (.again t) → P t)
    (hreach : Reach body s t) (hs : P s) : P t := by
  induction hreach with
  | refl => exact hs
  | tail _ hbody ih => exact hstep _ _ ih hbody

theorem run_invariant (hstep : ∀ s t, P s → body s = .ok (.again t) → P t)
    (hs : P s) (h : run stuck body n s = .ok r) : ∃ t, P t ∧ body t = .ok (.leave r) := by
  obtain ⟨t, hreach, hleave, -⟩ := run_ok h
  exact ⟨t, reach_invariant hstep hreach hs, hleave⟩

theorem run_congr (hagree : ∀ t, Reach body s t → body' t = body t) :
    run stuck body' n s = run stuck body n s := by
  induction n generalizing s with
  | zero => rfl
  | succ n ih =>
    simp only [run, hagree s .refl]
    cases hbody : body s with
    | error e => rfl
    | ok p =>
      cases p with
      | leave r => rfl
      | again s' => exact ih fun t hreach => hagree t (.head hbody hreach)

theorem run_le {m : Nat} (hbody : ∀ s p, body s = .ok p → body' s = .ok p)
    (h : run stuck body n s = .ok r) (hle : n ≤ m) : run stuck body' m s = .ok r := by
  induction n generalizing s m with
  | zero => cases h
  | succ n ih =>
    obtain ⟨m, rfl⟩ : ∃ k, m = k + 1 := ⟨m - 1, by omega⟩
    cases hpass : body s with
    | error e =>
      rw [run, hpass] at h
      cases h
    | ok p =>
      cases p with
      | leave r' =>
        rw [run_leave hpass] at h
        rw [run_leave (hbody s _ hpass)]
        exact h
      | again s' =>
        rw [run_again hpass] at h
        rw [run_again (hbody s _ hpass)]
        exact ih h (by omega)

theorem run_total (μ : σ → Nat) (hstep : ∀ s, P s → (∃ r, body s = .ok (.leave r)) ∨
      ∃ t, body s = .ok (.again t) ∧ P t ∧ μ t < μ s) (hs : P s) (hn : μ s < n) :
    ∃ t r, P t ∧ body t = .ok (.leave r) ∧ run stuck body n s = .ok r := by
  induction n generalizing s with
  | zero => omega
  | succ n ih =>
    obtain ⟨r, hleave⟩ | ⟨t, hagain, ht, hlt⟩ := hstep s hs
    · exact ⟨s, r, hs, hleave, run_leave hleave n⟩
    · obtain ⟨u, r, hu, hleave, hrun⟩ := ih ht (by omega)
      exact ⟨u, r, hu, hleave, (run_again hagain n).trans hrun⟩

/-- Some amount of fuel gets the loop to an end, be it a failure of its body. -/
def Ends (stuck : ε) (body : σ → Except ε (Pass σ ρ)) (s : σ) : Prop :=
  ∃ n, run stuck body n s ≠ .error stuck

theorem run_ne_stuck {μ : σ → Nat} (hfault : ∀ s, body s ≠ .error stuck)
    (hstep : ∀ s t, P s → body s = .ok (.again t) → P t ∧ μ t < μ s)
    (hs : P s) (hn : μ s < n) : run stuck body n s ≠ .error stuck := by
  induction n generalizing s with
  | zero => omega
  | succ n ih =>
    cases hbody : body s with
    | error e =>
      intro h
      rw [run, hbody] at h
      cases h
      exact hfault s hbody
    | ok p =>
      cases p with
      | leave r =>
        rw [run_leave hbody]
        exact nofun
      | again t =>
        obtain ⟨ht, hlt⟩ := hstep s t hs hbody
        rw [run_again hbody]
        exact ih ht (by omega)

theorem run_stuck {Q : σ → Prop} (hstep : ∀ s, Q s → ∃ t, body s = .ok (.again t) ∧ Q t) (n : Nat)
    (hs : Q s) : run stuck body n s = .error stuck := by
  induction n generalizing s with
  | zero => rfl
  | succ n ih =>
    obtain ⟨t, hbody, ht⟩ := hstep s hs
    rw [run_again hbody]
    exact ih ht

theorem not_ends_of_reach (hreach : Reach body s t)
    (hstuck : ∀ n, run stuck body n t = .error stuck) : ¬Ends stuck body s := by
  induction hreach using Relation.ReflTransGen.head_induction_on with
  | refl =>
    rintro ⟨n, hn⟩
    exact hn (hstuck n)
  | head hbody _ ih =>
    rintro ⟨n, hn⟩
    cases n with
    | zero => exact hn rfl
    | succ n =>
      rw [run_again hbody] at hn
      exact ih ⟨n, hn⟩

theorem foldlM_range {α : Type} {f : α → Nat → Except ε α} {P : Nat → α → Prop}
    (hstep : ∀ i a a', i < n → P i a → f a i = .ok a' → P (i + 1) a') {a a' : α} (ha : P 0 a)
    (hrun : (List.range n).foldlM f a = .ok a') : P n a' := by
  induction n generalizing a' with
  | zero =>
    cases hrun
    exact ha
  | succ n ih =>
    rw [List.range_succ, List.foldlM_append, bind_eq_ok] at hrun
    obtain ⟨b, hfirst, hlast⟩ := hrun
    rw [List.foldlM_cons, bind_eq_ok] at hlast
    obtain ⟨b', hbody, hret⟩ := hlast
    cases hret
    exact hstep n b a' (Nat.lt_succ_self n)
      (ih (fun i a a' hi => hstep i a a' (Nat.lt_succ_of_lt hi)) hfirst) hbody

end Loop
