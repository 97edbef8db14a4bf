import Mathlib.Logic.Function.Basic

/-!
# Shifting part of an array

The two loops move a part of an array in place, an entry at a time in the order in which no entry is lost.
-/

namespace Shift

open List Function

variable {α : Type}

/-- The first `n` entries. -/
def listed (m : Nat → α) (n : Nat) : List α := (List.range n).map m

/-- `for (; n > 0; i++, n--) m[i] = m[i + d];` -/
def close (d : Nat) : Nat → Nat → (Nat → α) → Nat → α
  | 0, _, m => m
  | n + 1, i, m => close d n (i + 1) (Function.update m i (m (i + d)))

/-- `for (i = a + n; i > a; i--) m[i] = m[i - 1];` -/
def expand (a : Nat) : Nat → (Nat → α) → Nat → α
  | 0, m => m
  | n + 1, m => expand a n (Function.update m (a + n + 1) (m (a + n)))

variable {m m' : Nat → α} {a d i k n : Nat} {x : α}

theorem length_listed : (listed m n).length = n := by
  rw [listed, length_map, length_range]

theorem listed_getElem? : (listed m n)[k]? = if k < n then some (m k) else none := by
  rw [listed, getElem?_map]
  by_cases hk : k < n
  · rw [if_pos hk, getElem?_range hk]
    rfl
  · rw [if_neg hk, getElem?_eq_none (by rw [length_range]; omega)]
    rfl

theorem listed_congr (h : ∀ k < n, m' k = m k) : listed m' n = listed m n :=
  map_congr_left fun k hk => h k (mem_range.mp hk)

theorem listed_add (m : Nat → α)
    (n k : Nat) : listed m (n + k) = listed m n ++ listed (fun i => m (n + i)) k := by
  rw [listed, range_add, map_append, map_map]
  rfl

theorem take_listed : (listed m n).take k = listed m (min k n) := by
  rw [listed, ← map_take, take_range]
  rfl

theorem listed_succ (m : Nat → α) (n : Nat) : listed m (n + 1) = listed m n ++ [m n] := listed_add m n 1

theorem listed_update_end (m : Nat → α) (n : Nat) (x : α) :
    listed (Function.update m n x) (n + 1) = listed m n ++ [x] := by
  rw [listed_succ, update_self, listed_congr fun k hk => update_of_ne (Nat.ne_of_lt hk) _ _]

theorem listed_update (f : α → α) : listed (Function.update m k (f (m k))) n = (listed m n).modify k f := by
  apply ext_getElem?
  intro i
  rw [getElem?_modify, listed_getElem?, listed_getElem?]
  by_cases hi : i < n
  · rw [if_pos hi, if_pos hi]
    by_cases hik : k = i
    · subst hik
      rw [update_self]
      exact congrArg some (if_pos rfl).symm
    · rw [update_of_ne (Ne.symm hik)]
      exact congrArg some (if_neg hik).symm
  · rw [if_neg hi, if_neg hi]
    rfl

theorem close_apply : close d n i m k = if i ≤ k ∧ k < i + n then m (k + d) else m k := by
  induction n generalizing i m with
  | zero => rw [close, if_neg (by omega)]
  | succ n ih =>
    rw [close, ih]
    by_cases hk : k = i
    · subst hk
      rw [if_neg (by omega), if_pos (by omega), update_self]
    · rw [update_of_ne hk]
      by_cases hin : i + 1 ≤ k ∧ k < i + 1 + n
      · rw [if_pos hin, if_pos (by omega), update_of_ne (by omega)]
      · rw [if_neg hin, if_neg (by omega)]

theorem expand_apply : expand a n m k = if a < k ∧ k ≤ a + n then m (k - 1) else m k := by
  induction n generalizing m with
  | zero => rw [expand, if_neg (by omega)]
  | succ n ih =>
    rw [expand, ih]
    by_cases hk : k = a + n + 1
    · subst hk
      rw [if_neg (by omega), if_pos (by omega), update_self]
      rfl
    · rw [update_of_ne hk]
      by_cases hin : a < k ∧ k ≤ a + n
      · rw [if_pos hin, if_pos (by omega), update_of_ne (by omega)]
      · rw [if_neg hin, if_neg (by omega)]

theorem listed_close_zero : listed (close d n 0 m) n = (listed m (d + n)).drop d := by
  apply ext_getElem?
  intro k
  rw [getElem?_drop, listed_getElem?, listed_getElem?, close_apply, Nat.add_comm k d]
  by_cases hk : k < n
  · rw [if_pos hk, if_pos (by omega), if_pos (by omega)]
  · rw [if_neg hk, if_neg (by omega)]

/-- Closing a gap of one entry erases it, also when entries behind the last one move along. -/
theorem listed_close_one {c : Nat} (ha : a ≤ n) (hc : n ≤ a + c) :
    listed (close 1 c a m) n = (listed m (n + 1)).eraseIdx a := by
  apply ext_getElem?
  intro k
  rw [getElem?_eraseIdx, listed_getElem?, listed_getElem?, listed_getElem?, close_apply]
  by_cases hk : k < n
  · by_cases hka : k < a
    · rw [if_pos hk, if_neg (by omega), if_pos hka, if_pos (by omega)]
    · rw [if_pos hk, if_pos (by omega), if_neg hka, if_pos (by omega)]
  · rw [if_neg hk, if_neg (by omega), if_neg (by omega)]

theorem listed_expand : listed (Function.update (expand a n m) a x) (a + n + 1) =
      (listed m (a + n)).insertIdx a x := by
  apply ext_getElem?
  intro k
  rw [getElem?_insertIdx, listed_getElem?, listed_getElem?, listed_getElem?, length_listed]
  rcases Nat.lt_trichotomy k a with hk | rfl | hk
  · rw [if_pos (by omega), if_pos hk, if_pos (by omega), update_of_ne (by omega),
      expand_apply, if_neg (by omega)]
  · rw [if_pos (by omega), if_neg (by omega), if_pos rfl, if_pos (by omega), update_self]
  · rw [if_neg (Nat.lt_asymm hk), if_neg (Nat.ne_of_gt hk), update_of_ne (Nat.ne_of_gt hk), expand_apply]
    by_cases hin : k < a + n + 1
    · rw [if_pos hin, if_pos (by omega), if_pos (by omega)]
    · rw [if_neg hin, if_neg (by omega)]

end Shift
