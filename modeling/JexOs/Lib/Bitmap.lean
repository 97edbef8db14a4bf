import JexOs.Lib.Bytes
import Mathlib.Data.Finset.Card

/-!
# Bitmaps stored in bytes

Bit `i` of a bitmap is bit `i % 8` of byte `i / 8`, and a bitmap is the set of its indices.
-/

namespace Bitmap

open ByteMem Function Finset

def mask (i : Nat) : UInt8 := UInt8.ofNat (2 ^ (i % 8))

def test (bytes : Mem) (i : Nat) : Bool := bytes (i / 8) &&& mask i != 0

def set (bytes : Mem) (i : Nat) : Mem :=
  Function.update bytes (i / 8) (bytes (i / 8) ||| mask i)

def clear (bytes : Mem) (i : Nat) : Mem :=
  Function.update bytes (i / 8) (bytes (i / 8) &&& ~~~mask i)

theorem toNat_mask (i : Nat) : (mask i).toNat = 2 ^ (i % 8) := by
  have hbit : 2 ^ (i % 8) < 2 ^ 8 := Nat.pow_lt_pow_right (by decide) (Nat.mod_lt i (by decide))
  exact Nat.mod_eq_of_lt hbit

theorem test_eq_testBit (bytes : Mem) (i : Nat) : test bytes i = (bytes (i / 8)).toNat.testBit (i % 8) := by
  have hand : (bytes (i / 8) &&& mask i).toNat =
      ((bytes (i / 8)).toNat.testBit (i % 8)).toNat * 2 ^ (i % 8) := by
    rw [UInt8.toNat_and, toNat_mask, Nat.and_two_pow]
  have hzero : (bytes (i / 8) &&& mask i = 0) ↔ (bytes (i / 8) &&& mask i).toNat = 0 := by
    rw [← UInt8.toNat_inj]
    rfl
  unfold test
  cases hbit : (bytes (i / 8)).toNat.testBit (i % 8) with
  | false =>
    rw [hbit] at hand
    simp [hzero, hand]
  | true =>
    rw [hbit] at hand
    simp [hzero, hand]

theorem eq_iff_div_mod {i j : Nat} : j = i ↔ j / 8 = i / 8 ∧ j % 8 = i % 8 := by
  omega

theorem test_set (bytes : Mem) (i j : Nat) : test (set bytes i) j = (decide (j = i) || test bytes j) := by
  rw [test_eq_testBit, test_eq_testBit]
  unfold set
  by_cases hbyte : j / 8 = i / 8
  · rw [hbyte, update_self, UInt8.toNat_or, Nat.testBit_or, toNat_mask, Nat.testBit_two_pow, Bool.or_comm]
    congr 1
    simp only [eq_iff_div_mod (i := i), hbyte, true_and, decide_eq_decide]
    exact eq_comm
  · have hne : j ≠ i := fun heq => hbyte (heq ▸ rfl)
    rw [update_of_ne hbyte]
    simp [hne]

theorem test_clear (bytes : Mem) (i j : Nat) : test (clear bytes i) j = (!decide (j = i) && test bytes j) := by
  rw [test_eq_testBit, test_eq_testBit]
  unfold clear
  by_cases hbyte : j / 8 = i / 8
  · have hpow : 2 ^ (i % 8) < 2 ^ 8 := Nat.pow_lt_pow_right (by decide) (Nat.mod_lt i (by decide))
    have hnot : (~~~mask i).toNat = 2 ^ 8 - (2 ^ (i % 8) + 1) := by
      rw [UInt8.toNat_not, toNat_mask]
      simp only [UInt8.size]
      omega
    have hlt : j % 8 < 8 := Nat.mod_lt j (by decide)
    rw [hbyte, update_self, UInt8.toNat_and, Nat.testBit_and, hnot,
      Nat.testBit_two_pow_sub_succ hpow, Nat.testBit_two_pow, Bool.and_comm]
    simp only [hlt, decide_true, Bool.true_and, eq_iff_div_mod (i := i), hbyte, true_and]
    simp only [eq_comm]
  · have hne : j ≠ i := fun heq => hbyte (heq ▸ rfl)
    rw [update_of_ne hbyte]
    simp [hne]

def count (bytes : Mem) (n : Nat) : Nat := ((Finset.range n).filter (test bytes ·)).card

theorem count_le (bytes : Mem) (n : Nat) : count bytes n ≤ n := by
  have hcard := card_filter_le (Finset.range n) (test bytes ·)
  rwa [card_range] at hcard

theorem count_mono {bytes bytes' : Mem} {n : Nat}
    (hbits : ∀ i, i < n → test bytes i = true → test bytes' i = true) :
    count bytes n ≤ count bytes' n := by
  refine card_le_card fun i hi => ?_
  rw [mem_filter, mem_range] at hi ⊢
  exact ⟨hi.1, hbits i hi.1 hi.2⟩

theorem count_set {bytes : Mem} {n i : Nat} (hi : i < n) (hclear : test bytes i = false) :
    count (set bytes i) n = count bytes n + 1 := by
  have hfilter : (Finset.range n).filter (test (set bytes i) ·) =
      insert i ((Finset.range n).filter (test bytes ·)) := by
    ext j
    simp only [mem_filter, mem_range, mem_insert, test_set, Bool.or_eq_true, decide_eq_true_eq]
    constructor
    · rintro ⟨hj, heq | hset⟩
      · exact .inl heq
      · exact .inr ⟨hj, hset⟩
    · rintro (heq | ⟨hj, hset⟩)
      · exact ⟨heq ▸ hi, .inl heq⟩
      · exact ⟨hj, .inr hset⟩
  unfold count
  rw [hfilter, card_insert_of_notMem (by simp [hclear])]

theorem count_clear {bytes : Mem} {n i : Nat} (hi : i < n) (hset : test bytes i = true) :
    count (clear bytes i) n + 1 = count bytes n := by
  have hfilter : (Finset.range n).filter (test (clear bytes i) ·) =
      ((Finset.range n).filter (test bytes ·)).erase i := by
    ext j
    simp only [mem_filter, mem_range, mem_erase, test_clear,
      Bool.and_eq_true, Bool.not_eq_true', decide_eq_false_iff_not]
    tauto
  unfold count
  rw [hfilter]
  exact card_erase_add_one (by simp [hi, hset])

theorem exists_clear_of_count_lt {bytes : Mem} {n : Nat} (hcount : count bytes n < n) :
    ∃ i, i < n ∧ test bytes i = false := by
  by_contra hall
  push Not at hall
  have hfilter : (Finset.range n).filter (test bytes ·) = Finset.range n := by
    refine filter_true_of_mem fun i hi => ?_
    exact Bool.ne_false_iff.mp (hall i (mem_range.mp hi))
  unfold count at hcount
  rw [hfilter, card_range] at hcount
  exact absurd hcount (lt_irrefl n)

end Bitmap
