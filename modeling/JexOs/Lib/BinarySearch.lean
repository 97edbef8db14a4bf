import Mathlib.Order.Lattice

/-!
# Binary search

The entries that the loop looks at on its way to an index form the path of the index in a search tree.
-/

namespace BinarySearch

open List

section Search

variable (hit below : Int → Bool)

/-- Entry `mid` answers, or what is searched for is below it or not. The number of entries is enough
fuel. -/
def search : Nat → Int → Int → Option Int
  | 0, _, _ => none
  | fuel + 1, lo, hi =>
    if lo ≤ hi then
      let mid := (lo + hi) / 2
      if hit mid then some mid
      else if below mid then search fuel lo (mid - 1)
      else search fuel (mid + 1) hi
    else none

def path : Nat → Int → Int → Int → List Int
  | 0, _, _, _ => []
  | fuel + 1, lo, hi, i =>
    let mid := (lo + hi) / 2
    if i = mid then []
    else mid :: if i < mid then path fuel lo (mid - 1) i else path fuel (mid + 1) hi i

/-- How many entries are looked at before an index of a table. -/
def depth (n : Nat) (i : Int) : Nat := (path n 0 (n - 1) i).length

end Search

section Paths

variable {fuel : Nat} {lo hi i j k m : Int}

theorem path_lt (h : i < (lo + hi) / 2) :
    path (fuel + 1) lo hi i = (lo + hi) / 2 :: path fuel lo ((lo + hi) / 2 - 1) i :=
  (if_neg (by omega)).trans (congrArg _ (if_pos h))

theorem path_gt (h : (lo + hi) / 2 < i) :
    path (fuel + 1) lo hi i = (lo + hi) / 2 :: path fuel ((lo + hi) / 2 + 1) hi i :=
  (if_neg (by omega)).trans (congrArg _ (if_neg (by omega)))

theorem path_self : path (fuel + 1) lo hi ((lo + hi) / 2) = [] := if_pos rfl

theorem mem_path (hlo : lo ≤ i) (hhi : i ≤ hi) (h : m ∈ path fuel lo hi i) : lo ≤ m ∧ m ≤ hi := by
  induction fuel generalizing lo hi with
  | zero => cases h
  | succ fuel ih =>
    rcases Int.lt_trichotomy i ((lo + hi) / 2) with hlt | heq | hgt
    · rw [path_lt hlt] at h
      rcases mem_cons.mp h with rfl | h
      · omega
      · have hrest := ih hlo (by omega) h
        omega
    · rw [heq, path_self] at h
      cases h
    · rw [path_gt hgt] at h
      rcases mem_cons.mp h with rfl | h
      · omega
      · have hrest := ih (by omega) hhi h
        omega

theorem path_adjacent (hfuel : hi + 1 - lo ≤ fuel) (hlo : lo ≤ j) (hhi : j + 1 ≤ hi) :
    j ∈ path fuel lo hi (j + 1) ∨ j + 1 ∈ path fuel lo hi j := by
  induction fuel generalizing lo hi with
  | zero => omega
  | succ fuel ih =>
    rcases Int.lt_trichotomy (j + 1) ((lo + hi) / 2) with hlt | heq | hgt
    · rw [path_lt hlt, path_lt (i := j) (by omega)]
      exact (ih (by omega) hlo (by omega)).imp (mem_cons_of_mem _) (mem_cons_of_mem _)
    · rw [path_lt (i := j) (by omega), heq]
      exact .inr mem_cons_self
    · rcases Int.lt_or_eq_of_le (show (lo + hi) / 2 ≤ j by omega) with hgt' | heq
      · rw [path_gt hgt, path_gt hgt']
        exact (ih (by omega) (by omega) hhi).imp (mem_cons_of_mem _) (mem_cons_of_mem _)
      · rw [path_gt hgt, heq]
        exact .inl mem_cons_self

theorem length_path_lt (hfuel : hi + 1 - lo ≤ fuel) (hlo : lo ≤ i) (hhi : i ≤ hi)
    (h : m ∈ path fuel lo hi i) : (path fuel lo hi m).length < (path fuel lo hi i).length := by
  induction fuel generalizing lo hi with
  | zero => cases h
  | succ fuel ih =>
    rcases Int.lt_trichotomy i ((lo + hi) / 2) with hlt | heq | hgt
    · rw [path_lt hlt] at h ⊢
      rcases mem_cons.mp h with rfl | h
      · rw [path_self]
        exact Nat.succ_pos _
      · have hrange := mem_path hlo (by omega) h
        rw [path_lt (i := m) (by omega), length_cons]
        exact Nat.succ_lt_succ (ih (by omega) hlo (by omega) h)
    · rw [heq, path_self] at h
      cases h
    · rw [path_gt hgt] at h ⊢
      rcases mem_cons.mp h with rfl | h
      · rw [path_self]
        exact Nat.succ_pos _
      · have hrange := mem_path (by omega) hhi h
        rw [path_gt (i := m) (by omega), length_cons]
        exact Nat.succ_lt_succ (ih (by omega) (by omega) hhi h)

theorem not_mem_path_iff (n : Nat) (hlo : 0 ≤ j) (hhi : j + 1 < n) :
    j ∉ path n 0 (n - 1) (j + 1) ↔ depth n (j + 1) < depth n j := by
  constructor
  · intro hnot
    rcases path_adjacent (show (n : Int) - 1 + 1 - 0 ≤ n by omega) hlo (by omega) with h | h
    · exact absurd h hnot
    · exact length_path_lt (by omega) hlo (by omega) h
  · intro hlt hmem
    have hgt := length_path_lt (by omega) (show 0 ≤ j + 1 by omega) (by omega) hmem
    unfold depth at hlt
    omega

end Paths

section Results

variable {hit below : Int → Bool} {fuel : Nat} {lo hi i : Int}

theorem search_hit (h : search hit below fuel lo hi = some i) : hit i = true ∧ lo ≤ i ∧ i ≤ hi := by
  induction fuel generalizing lo hi with
  | zero => cases h
  | succ fuel ih =>
    unfold search at h
    dsimp only at h
    split at h
    · split at h
      · cases h
        exact ⟨‹_›, by omega, by omega⟩
      · split at h
        · obtain ⟨hhit, hrange⟩ := ih h
          exact ⟨hhit, by omega, by omega⟩
        · obtain ⟨hhit, hrange⟩ := ih h
          exact ⟨hhit, by omega, by omega⟩
    · cases h

theorem search_eq_some (hfuel : hi + 1 - lo ≤ fuel) (hlo : lo ≤ i) (hhi : i ≤ hi) (hhit : hit i = true)
    (hpath : ∀ m ∈ path fuel lo hi i, hit m = false ∧ (below m = true ↔ i < m)) :
    search hit below fuel lo hi = some i := by
  induction fuel generalizing lo hi with
  | zero => omega
  | succ fuel ih =>
    unfold search
    rw [if_pos (by omega)]
    rcases Int.lt_trichotomy i ((lo + hi) / 2) with hlt | heq | hgt
    · rw [path_lt hlt] at hpath
      obtain ⟨hnot, hbelow⟩ := hpath _ mem_cons_self
      rw [if_neg (by rw [hnot]; exact Bool.false_ne_true), if_pos (hbelow.mpr hlt)]
      exact ih (by omega) hlo (by omega) fun m hm => hpath m (mem_cons_of_mem _ hm)
    · rw [← heq, if_pos hhit]
    · rw [path_gt hgt] at hpath
      obtain ⟨hnot, hbelow⟩ := hpath _ mem_cons_self
      rw [if_neg (by rw [hnot]; exact Bool.false_ne_true), if_neg fun h => by
        have := hbelow.mp h
        omega]
      exact ih (by omega) (by omega) hhi fun m hm => hpath m (mem_cons_of_mem _ hm)

theorem hit_path_eq_false (h : search hit below fuel lo hi = some i)
    (hpath : ∀ m ∈ path fuel lo hi i, below m = true ↔ i < m) {m : Int}
    (hm : m ∈ path fuel lo hi i) : hit m = false := by
  induction fuel generalizing lo hi with
  | zero => cases hm
  | succ fuel ih =>
    unfold search at h
    dsimp only at h
    split at h
    · rcases Int.lt_trichotomy i ((lo + hi) / 2) with hlt | heq | hgt
      · rw [path_lt hlt] at hpath hm
        split at h
        · cases h
          omega
        · rename_i hnot
          rw [if_pos ((hpath _ mem_cons_self).mpr hlt)] at h
          rcases mem_cons.mp hm with rfl | hm
          · exact Bool.eq_false_iff.mpr hnot
          · exact ih h (fun m hm => hpath m (mem_cons_of_mem _ hm)) hm
      · rw [heq, path_self] at hm
        cases hm
      · rw [path_gt hgt] at hpath hm
        split at h
        · cases h
          omega
        · rename_i hnot
          have hturn : ¬ below ((lo + hi) / 2) = true := fun hb => by
            have := (hpath _ mem_cons_self).mp hb
            omega
          rw [if_neg hturn] at h
          rcases mem_cons.mp hm with rfl | hm
          · exact Bool.eq_false_iff.mpr hnot
          · exact ih h (fun m hm => hpath m (mem_cons_of_mem _ hm)) hm
    · cases h

theorem hit_eq_false (hfuel : hi + 1 - lo ≤ fuel) (hlo : lo ≤ i) (hhi : i ≤ hi)
    (hbelow : ∀ m, lo ≤ m → m ≤ hi → (below m = true ↔ i < m))
    (h : search hit below fuel lo hi = none) : hit i = false := by
  induction fuel generalizing lo hi with
  | zero => omega
  | succ fuel ih =>
    unfold search at h
    dsimp only at h
    rw [if_pos (by omega)] at h
    split at h
    · cases h
    · rename_i hnot
      have hturn := hbelow ((lo + hi) / 2) (by omega) (by omega)
      rcases Int.lt_trichotomy i ((lo + hi) / 2) with hlt | heq | hgt
      · rw [if_pos (hturn.mpr hlt)] at h
        exact ih (by omega) hlo (by omega) (fun m hm hm' => hbelow m hm (by omega)) h
      · rw [heq]
        exact Bool.eq_false_iff.mpr hnot
      · rw [if_neg fun hb => by have := hturn.mp hb; omega] at h
        exact ih (by omega) (by omega) hhi (fun m hm hm' => hbelow m (by omega) hm') h

end Results

section Order

variable {α : Type*} [LinearOrder α] {key : Int → α} {hit below : Int → Int → Bool} {fuel : Nat}
  {lo hi i j : Int}

theorem turn_of_search (hbelow : ∀ i m, below i m = true ↔ key i < key m)
    (h : search (hit i) (below i) (fuel + 1) lo hi = some i) :
    (i < (lo + hi) / 2 → key i < key ((lo + hi) / 2) ∧
      search (hit i) (below i) fuel lo ((lo + hi) / 2 - 1) = some i) ∧
    ((lo + hi) / 2 < i → key ((lo + hi) / 2) ≤ key i ∧
      search (hit i) (below i) fuel ((lo + hi) / 2 + 1) hi = some i) := by
  unfold search at h
  dsimp only at h
  split at h
  · split at h
    · cases h
      exact ⟨fun hlt => by omega, fun hgt => by omega⟩
    · split at h
      · rename_i hturn
        have hrange := (search_hit h).2
        exact ⟨fun _ => ⟨(hbelow _ _).mp hturn, h⟩, fun hgt => by omega⟩
      · rename_i hturn
        have hrange := (search_hit h).2
        refine ⟨fun hlt => by omega, fun _ => ⟨le_of_not_gt fun hlt => ?_, h⟩⟩
        exact hturn ((hbelow _ _).mpr hlt)
  · cases h

theorem key_le_of_search (hbelow : ∀ i m, below i m = true ↔ key i < key m) (hfuel : hi + 1 - lo ≤ fuel)
    (h : ∀ i, lo ≤ i → i ≤ hi → search (hit i) (below i) fuel lo hi = some i)
    (hlo : lo ≤ i) (hij : i < j) (hhi : j ≤ hi) : key i ≤ key j := by
  induction fuel generalizing lo hi with
  | zero => omega
  | succ fuel ih =>
    have hi' := turn_of_search hbelow (h i hlo (by omega))
    have hj' := turn_of_search hbelow (h j (by omega) hhi)
    by_cases hleft : j < (lo + hi) / 2
    · refine ih (show (lo + hi) / 2 - 1 + 1 - lo ≤ fuel by omega) (fun k hk hk' => ?_) hlo (by omega)
      exact ((turn_of_search hbelow (h k hk (by omega))).1 (by omega)).2
    · by_cases hright : (lo + hi) / 2 < i
      · refine ih (show hi + 1 - ((lo + hi) / 2 + 1) ≤ fuel by omega) (fun k hk hk' => ?_) (by omega) hhi
        exact ((turn_of_search hbelow (h k (by omega) hk')).2 (by omega)).2
      · have hmid : key i ≤ key ((lo + hi) / 2) := by
          rcases Int.lt_or_eq_of_le (Int.not_lt.mp hright) with hlt | heq
          · exact le_of_lt (hi'.1 hlt).1
          · rw [← heq]
        have hmid' : key ((lo + hi) / 2) ≤ key j := by
          rcases Int.lt_or_eq_of_le (Int.not_lt.mp hleft) with hlt | heq
          · exact (hj'.2 hlt).1
          · rw [← heq]
        exact le_trans hmid hmid'

end Order

end BinarySearch
