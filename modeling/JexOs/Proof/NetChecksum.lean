import JexOs.Net

/-!
# The checksum

The folded sum is the sum modulo `2 ^ 16 - 1`, with `2 ^ 16 - 1` in the place of 0 for sums that are not 0.
-/

namespace JexOs.Net

open ByteMem Tcp

section Fold

theorem fold_zero : fold 0 = 0 := by
  rw [fold]
  rfl

theorem fold_of_pos {s : Nat} (h : 0 < s) : fold s = (s - 1) % 0xFFFF + 1 := by
  induction s using fold.induct with
  | case1 s hsmall =>
    rw [fold, if_pos hsmall]
    omega
  | case2 s hlarge ih =>
    rw [fold, if_neg hlarge, ih (by omega)]
    omega

theorem fold_le (s : Nat) : fold s ≤ 0xFFFF := by
  rcases Nat.eq_zero_or_pos s with rfl | hpos
  · rw [fold_zero]
    exact Nat.zero_le _
  · rw [fold_of_pos hpos]
    omega

theorem fold_add_complement {s : Nat} (h : 0 < s) : fold (s + (0xFFFF - fold s)) = 0xFFFF := by
  rw [fold_of_pos (s := s + _) (by omega), fold_of_pos h]
  omega

end Fold

section Sums

variable {m m' : Mem} {n len : Nat}

theorem sumWords_congr (h : ∀ k < 2 * n, m' k = m k) : sumWords m' n = sumWords m n := by
  induction n with
  | zero => rfl
  | succ n ih =>
    rw [sumWords, sumWords, ih fun k hk => h k (by omega), load16_congr fun k _ hk => h k (by omega)]

theorem sumBytes_congr (h : ∀ k < len, m' k = m k) : sumBytes m' len = sumBytes m len := by
  have hwords : sumWords m' (len / 2) = sumWords m (len / 2) := sumWords_congr fun k hk => h k (by omega)
  unfold sumBytes
  rw [hwords]
  split
  · rw [h (len - 1) (by omega)]
  · rfl

theorem checksum_congr (h : ∀ k < len, m' k = m k) : checksum m' len = checksum m len := by
  unfold checksum
  rw [sumBytes_congr h]

theorem sumWords_le (m : Mem) (n : Nat) : sumWords m n ≤ 0xFFFF * n := by
  induction n with
  | zero => exact le_rfl
  | succ n ih =>
    have hword := load16_lt m (2 * n)
    rw [sumWords]
    omega

theorem load16_le_sumWords {i : Nat} (hn : n ≤ 2 ^ 15) (hi : i < n) : load16 m (2 * i) ≤ sumWords m n := by
  induction n with
  | zero => omega
  | succ n ih =>
    have hle := sumWords_le m n
    have hword := load16_lt m (2 * n)
    rw [sumWords, Nat.mod_eq_of_lt (by omega)]
    by_cases heq : i = n
    · rw [heq]
      exact Nat.le_add_left _ _
    · exact (ih (by omega) (by omega)).trans (Nat.le_add_right _ _)

theorem sumWords_store16 {i v : Nat} (hn : n ≤ 2 ^ 15) (hi : i < n) (hv : v < 2 ^ 16)
    (hzero : load16 m (2 * i) = 0) :
    sumWords (store16 m (2 * i) v) n = sumWords m n + v := by
  have hother {j : Nat} (hj : j ≠ i) : load16 (store16 m (2 * i) v) (2 * j) = load16 m (2 * j) := by
    refine load16_congr fun k hk hk' => ?_
    rcases Nat.lt_or_gt_of_ne hj with hlt | hgt
    · exact blit_of_lt (by omega)
    · exact blit_of_ge (by omega)
  have hbefore {j : Nat} (hj : j ≤ i) : sumWords (store16 m (2 * i) v) j = sumWords m j :=
    sumWords_congr fun k hk => blit_of_lt (by omega)
  induction n with
  | zero => omega
  | succ n ih =>
    have hle := sumWords_le m n
    have hword := load16_lt m (2 * n)
    rw [sumWords, sumWords]
    by_cases heq : i = n
    · rw [heq] at hzero ⊢
      rw [heq] at hbefore
      rw [hbefore le_rfl, load16_store16 hv, hzero]
      omega
    · rw [ih (by omega) (by omega), hother (by omega)]
      omega

theorem checksum_filled {i : Nat} (hn : n ≤ 2 ^ 15) (hi : i < n) (hzero : load16 m (2 * i) = 0)
    (hpos : 0 < sumWords m n) : checksum (store16 m (2 * i) (checksum m (2 * n))) (2 * n) = 0 := by
  have heven (m : Mem) : sumBytes m (2 * n) = sumWords m n := by
    unfold sumBytes
    rw [if_neg (by omega), Nat.mul_div_cancel_left _ (by decide)]
  unfold checksum
  rw [heven, heven, sumWords_store16 hn hi (by omega) hzero, fold_add_complement hpos]

end Sums

end JexOs.Net
