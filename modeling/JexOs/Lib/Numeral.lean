import Mathlib.Data.List.GetD
import Mathlib.Data.Nat.Digits.Lemmas

/-!
# Numerals

The text of a number in a base, and its value. What the characters are is left open.
-/

namespace Numeral

open List

variable {α : Type} {b n k : Nat} {char : Nat → α} {digit : α → Option Nat}

def digits (b n : Nat) : List Nat := if n = 0 then [0] else Nat.digits b n

theorem digits_of_ne_zero (hn : n ≠ 0) : digits b n = Nat.digits b n := if_neg hn

variable (hb : 1 < b)

include hb

theorem digits_eq (n : Nat) : digits b n = n % b :: if n / b = 0 then [] else digits b (n / b) := by
  by_cases hn : n = 0
  · rw [hn, Nat.zero_mod, Nat.zero_div, if_pos rfl]
    rfl
  · rw [digits_of_ne_zero hn, Nat.digits_eq_cons_digits_div hb hn]
    by_cases hq : n / b = 0
    · rw [if_pos hq, hq, Nat.digits_zero]
    · rw [if_neg hq, digits_of_ne_zero hq]

theorem digits_ne_nil (n : Nat) : digits b n ≠ [] := by
  rw [digits_eq hb]
  exact cons_ne_nil _ _

omit hb in
theorem ofDigits_digits (b n : Nat) : Nat.ofDigits b (digits b n) = n := by
  by_cases hn : n = 0
  · rw [hn]
    exact Nat.ofDigits_singleton
  · rw [digits_of_ne_zero hn, Nat.ofDigits_digits]

theorem digits_lt_base : ∀ d ∈ digits b n, d < b := by
  intro d hd
  by_cases hn : n = 0
  · rw [hn] at hd
    obtain rfl : d = 0 := mem_singleton.mp hd
    exact Nat.zero_lt_of_lt hb
  · rw [digits_of_ne_zero hn] at hd
    exact Nat.digits_lt_base hb hd

theorem length_digits_le (hk : 0 < k) (h : n < b ^ k) : (digits b n).length ≤ k := by
  by_cases hn : n = 0
  · rw [hn]
    exact hk
  · rw [digits_of_ne_zero hn]
    exact (Nat.digits_length_le_iff hb n).mpr h

def text (b : Nat) (char : Nat → α) (n : Nat) : List α := ((digits b n).map char).reverse

theorem text_ne_nil (n : Nat) : text b char n ≠ [] := by
  intro h
  exact digits_ne_nil hb n (map_eq_nil_iff.mp (reverse_eq_nil_iff.mp h))

theorem length_text_le (hk : 0 < k) (h : n < b ^ k) : (text b char n).length ≤ k := by
  rw [text, length_reverse, length_map]
  exact length_digits_le hb hk h

theorem mem_text {c : α} (h : c ∈ text b char n) : ∃ d < b, c = char d := by
  obtain ⟨d, hd, rfl⟩ := mem_map.mp (mem_reverse.mp h)
  exact ⟨d, digits_lt_base hb d hd, rfl⟩

def parse (b : Nat) (digit : α → Option Nat) (s : List α) : Option Nat :=
  if s.isEmpty then none else (s.mapM digit).map fun ds => Nat.ofDigits b ds.reverse

omit hb in
theorem mapM_map {ds : List Nat} (h : ∀ d ∈ ds, digit (char d) = some d) :
    (ds.map char).mapM digit = some ds := by
  induction ds with
  | nil => rfl
  | cons d ds ih =>
    rw [map_cons, mapM_cons, h d mem_cons_self, ih fun d' hd => h d' (mem_cons_of_mem d hd)]
    rfl

omit hb in
theorem parse_map {ds : List Nat} (hds : ds ≠ []) (h : ∀ d ∈ ds, digit (char d) = some d) :
    parse b digit (ds.map char) = some (Nat.ofDigits b ds.reverse) := by
  have hempty : (ds.map char).isEmpty = false := by
    rw [isEmpty_eq_false_iff]
    exact fun hnil => hds (map_eq_nil_iff.mp hnil)
  rw [parse, hempty, if_neg Bool.false_ne_true, mapM_map h]
  rfl

theorem parse_text (h : ∀ d < b, digit (char d) = some d)
    (n : Nat) : parse b digit (text b char n) = some n := by
  rw [text, ← map_reverse,
    parse_map (fun hnil => digits_ne_nil hb n (reverse_eq_nil_iff.mp hnil))
      fun d hd => h d (digits_lt_base hb d (mem_reverse.mp hd)),
    reverse_reverse, ofDigits_digits]

theorem ofDigits_eq_iff {ds : List Nat} (hds : ∀ d ∈ ds, d < b) (hn : n < b ^ ds.length) :
    Nat.ofDigits b ds = n ↔ ds = Nat.digitsAppend b ds.length n := by
  have hinv := Nat.setInvOn_digitsAppend_ofDigits hb ds.length
  constructor
  · rintro rfl
    exact (hinv.1 ⟨rfl, hds⟩).symm
  · intro h
    rw [h]
    exact hinv.2 hn

theorem digitsAppend_eq (hn : n < b ^ k) : Nat.digitsAppend b k n = (List.range k).map fun i =>
    n / b ^ i % b := by
  refine ext_getElem ?_ fun i hi hi' => ?_
  · rw [Nat.length_digitsAppend hb k hn, length_map, length_range]
  · rw [getElem_map, getElem_range, ← Nat.getD_digits n i hb, ← getD_eq_getElem _ 0 hi,
      Nat.digitsAppend, getD_eq_getElem?_getD, getD_eq_getElem?_getD, getElem?_append]
    split
    · rfl
    · rename_i hpast
      rw [getElem?_eq_none (Nat.le_of_not_lt hpast), getElem?_replicate]
      split <;> rfl

end Numeral
