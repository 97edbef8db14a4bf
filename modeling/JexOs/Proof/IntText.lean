import JexOs.IntText
import JexOs.Proof.VsnprintfNumbers

/-!
# Which printers agree

The decimal text of an integer and the hexadecimal text of a word, and the numbers for which the five
printers give them.
-/

namespace JexOs.IntText

open Vsnprintf List Option

def decimal (n : Int) : List UInt8 := signText n ++ digitText n

def hexadecimal (w : UInt32) : List UInt8 := Numeral.text 16 (hexChar false) w.toNat

def decValue (c : UInt8) : Option Nat :=
  if '0'.toUInt8 ≤ c ∧ c ≤ '9'.toUInt8 then some (c.toNat - 48) else none

def parseInt : List UInt8 → Option Int
  | [] => none
  | c :: s =>
    if c = '-'.toUInt8 then (Numeral.parse 10 decValue s).map fun m : Nat => -(m : Int)
    else (Numeral.parse 10 decValue (c :: s)).map fun m : Nat => (m : Int)

theorem parse_digitText (n : Int) : Numeral.parse 10 decValue (digitText n) = some n.natAbs :=
  Numeral.parse_text (by decide) (by decide) n.natAbs

theorem parseInt_decimal (n : Int) : parseInt (decimal n) = some n := by
  unfold decimal signText
  split
  · have hparse : parseInt (['-'.toUInt8] ++ digitText n) =
        (Numeral.parse 10 decValue (digitText n)).map fun m : Nat => -(m : Int) := by
      rw [singleton_append, parseInt, if_pos rfl]
    rw [hparse, parse_digitText]
    exact congrArg some (show -(n.natAbs : Int) = n by omega)
  · have hne : digitText n ≠ [] := Numeral.text_ne_nil (by decide) _
    obtain ⟨c, rest, hcons⟩ := exists_cons_of_ne_nil hne
    have hmem : c ∈ digitText n := hcons ▸ mem_cons_self
    obtain ⟨d, hd, rfl⟩ := Numeral.mem_text (by decide) hmem
    have hminus : ∀ d < 10, decChar d ≠ '-'.toUInt8 := by decide
    have hparse := parse_digitText n
    rw [nil_append, hcons]
    rw [hcons] at hparse
    rw [parseInt, if_neg (hminus d hd), hparse]
    exact congrArg some (show (n.natAbs : Int) = n by omega)

section Loops

variable {base n : Int32} {char : Int32 → UInt8} {ch : Nat → UInt8} {b : Nat}

theorem toInt_div_base (hb : 1 < b) (hbase : base.toInt = b)
    (n : Int32) : (n / base).toInt = n.toInt.tdiv b := by
  have hne : base ≠ -1 := by
    rintro rfl
    have : (-1 : Int32).toInt = -1 := by decide
    omega
  rw [Int32.toInt_div_of_ne_right n base hne, hbase]

theorem digitLoop_eq (hb : 1 < b) (hbase : base.toInt = b)
    (hchar : ∀ rem : Int32, 0 ≤ rem.toInt → rem.toInt < b → char rem = ch rem.toInt.toNat) {fuel : Nat}
    {str : List UInt8} (hn : 0 ≤ n.toInt) (hfuel : (Nat.digits b n.toInt.toNat).length < fuel) :
    digitLoop base char fuel n str = some (str ++ (Nat.digits b n.toInt.toNat).map ch) := by
  induction fuel generalizing n str with
  | zero => omega
  | succ fuel ih =>
    rw [digitLoop]
    by_cases hzero : n = 0
    · rw [if_neg (not_not_intro hzero), hzero]
      have hdigits : Nat.digits b (0 : Int32).toInt.toNat = [] := Nat.digits_zero b
      rw [hdigits, map_nil, append_nil]
    · have hpos : n.toInt.toNat ≠ 0 := by
        intro h
        have hint : n.toInt = 0 := by omega
        exact hzero (Int32.toInt_inj.mp hint)
      have hnat : n.toInt = (n.toInt.toNat : Int) := (Int.toNat_of_nonneg hn).symm
      have hdiv : (n / base).toInt = (n.toInt.toNat / b : Nat) := by
        rw [toInt_div_base hb hbase, hnat]
        rfl
      have hmod : (n % base).toInt = (n.toInt.toNat % b : Nat) := by
        rw [Int32.toInt_mod, hbase, hnat]
        rfl
      have hlt := Nat.mod_lt n.toInt.toNat (Nat.zero_lt_of_lt hb)
      rw [Nat.digits_eq_cons_digits_div hb hpos] at hfuel ⊢
      rw [length_cons] at hfuel
      rw [if_pos hzero, hchar _ (by omega) (by omega), hmod, Int.toNat_natCast]
      have hnonneg : 0 ≤ (n / base).toInt := hdiv ▸ Int.natCast_nonneg _
      have hshort : (Nat.digits b (n / base).toInt.toNat).length < fuel := by
        rw [hdiv, Int.toNat_natCast]
        omega
      rw [ih hnonneg hshort, hdiv, Int.toNat_natCast, append_assoc]
      rfl

theorem positiveLoop_eq {fuel : Nat} {str : List UInt8} (hn : 0 ≤ n.toInt) :
    positiveLoop fuel n str = digitLoop 10 decDigit fuel n str := by
  induction fuel generalizing n str with
  | zero => rfl
  | succ fuel ih =>
    rw [positiveLoop, digitLoop]
    have hsame : n > 0 ↔ n ≠ 0 := by
      have hlt : n > 0 ↔ 0 < n.toInt := Int32.lt_iff_toInt_lt
      have heq : n = 0 ↔ n.toInt = 0 := Int32.toInt_inj.symm
      rw [hlt, ne_eq, heq]
      omega
    have hnonneg : 0 ≤ (n / 10).toInt := by
      rw [toInt_div_base (show 1 < 10 by decide) (by decide)]
      exact Int.tdiv_nonneg hn (by decide)
    rw [ih hnonneg]
    exact if_congr hsame rfl rfl

theorem reversed_eq (str : List UInt8) : reversed str = str.reverse := Reverse.swapLoop_eq_reverse 0 str

theorem copied_eq (buf : List UInt8) :
    (List.range buf.length).map (fun j => buf.getD (buf.length - 1 - j) 0) = buf.reverse := by
  refine ext_getElem ?_ fun j hj hj' => ?_
  · rw [length_map, length_range, length_reverse]
  · rw [length_map, length_range] at hj
    rw [getElem_map, getElem_range, getElem_reverse, getD_eq_getElem _ _ (by omega)]

end Loops

section Printers

variable {n : Int32}

theorem without_sign (hmin : n ≠ Int32.minValue) :
    (if n < 0 then (-n, true) else (n, false)).1.toInt = (n.toInt.natAbs : Int) ∧
      ((if n < 0 then (-n, true) else (n, false)).2 = true ↔ n.toInt < 0) := by
  have hneg : n < 0 ↔ n.toInt < 0 := Int32.lt_iff_toInt_lt
  have hleast := n.le_toInt
  have hne : n.toInt ≠ -2 ^ 31 := fun h => hmin (Int32.toInt_inj.mp h)
  by_cases hsign : n < 0
  · have hlt := hneg.mp hsign
    rw [if_pos hsign]
    refine ⟨?_, fun _ => hlt, fun _ => rfl⟩
    rw [Int32.toInt_neg, Int.bmod_eq_of_le (by omega) (by omega)]
    omega
  · have hge := mt hneg.mpr hsign
    rw [if_neg hsign]
    refine ⟨?_, fun h => absurd h Bool.false_ne_true, fun h => absurd h hge⟩
    show n.toInt = (n.toInt.natAbs : Int)
    omega

theorem printed_decimal {char : Int32 → UInt8} (hzero : n ≠ 0) (hmin : n ≠ Int32.minValue)
    (hchar : ∀ rem : Int32, 0 ≤ rem.toInt → rem.toInt < 10 → char rem = decChar rem.toInt.toNat) :
    (digitLoop 10 char 33 (if n < 0 then (-n, true) else (n, false)).1 [] >>= fun str =>
      some (if (if n < 0 then (-n, true) else (n, false)).2 then str ++ ['-'.toUInt8] else str).reverse) =
        some (decimal n.toInt) := by
  obtain ⟨hvalue, hsign⟩ := without_sign hmin
  generalize (if n < 0 then (-n, true) else (n, false)) = p at *
  have hne : n.toInt.natAbs ≠ 0 := fun h => hzero (Int32.toInt_inj.mp (Int.natAbs_eq_zero.mp h))
  have hlt : n.toInt.natAbs < 10 ^ 32 := by
    have hleast := n.le_toInt
    have hmost := n.toInt_lt
    omega
  have hdigits := (Nat.digits_length_le_iff (show 1 < 10 by decide) n.toInt.natAbs).mpr hlt
  rw [digitLoop_eq (show 1 < 10 by decide) (show (10 : Int32).toInt = (10 : Nat) by decide) hchar (by omega)
    (by rw [hvalue, Int.toNat_natCast]; omega), hvalue, Int.toNat_natCast]
  unfold decimal signText digitText Numeral.text
  rw [Numeral.digits_of_ne_zero hne]
  refine congrArg some ?_
  by_cases hneg : n.toInt < 0
  · rw [if_pos (hsign.mpr hneg), if_pos hneg, reverse_append]
    rfl
  · rw [if_neg (mt hsign.mp hneg), if_neg hneg]
    rfl

theorem char_of_table {f : Int32 → UInt8} {g : Nat → UInt8} {b : Nat} (hb : b ≤ 16)
    (htable : ∀ k < b, f (Int32.ofNat k) = g k) (rem : Int32) (h : 0 ≤ rem.toInt) (h' : rem.toInt < b) :
    f rem = g rem.toInt.toNat := by
  have hrem : Int32.ofNat rem.toInt.toNat = rem := by
    refine Int32.toInt_inj.mp ?_
    rw [Int32.toInt_ofNat_of_lt (by omega)]
    omega
  rw [← htable rem.toInt.toNat (by omega), hrem]

theorem decDigit_eq (rem : Int32) (h : 0 ≤ rem.toInt) (h' : rem.toInt < 10) :
    decDigit rem = decChar rem.toInt.toNat :=
  char_of_table (show 10 ≤ 16 by decide) (by decide) rem h h'

theorem intToString_eq (hmin : n ≠ Int32.minValue) : intToString n = some (decimal n.toInt) := by
  unfold intToString
  by_cases hzero : n = 0
  · rw [if_pos hzero, hzero]
    rfl
  · rw [if_neg hzero]
    simp only [reversed_eq]
    exact printed_decimal hzero hmin decDigit_eq

theorem itoa_ten (hmin : n ≠ Int32.minValue) : itoa n 10 = some (decimal n.toInt) := by
  unfold itoa
  by_cases hzero : n = 0
  · rw [if_pos hzero, hzero]
    rfl
  · rw [if_neg hzero]
    simp only [reversed_eq, and_true]
    have hchar : ∀ rem : Int32, 0 ≤ rem.toInt → rem.toInt < 10 → itoaDigit rem = decChar rem.toInt.toNat :=
      char_of_table (show 10 ≤ 16 by decide) (by decide)
    exact printed_decimal hzero hmin hchar

theorem sysPrintInt_eq (n : Int32) : sysPrintInt n = some (decimal n.toInt) := by
  unfold sysPrintInt
  by_cases hmin : n.toUInt32 = 0x80000000
  · have hn : n = Int32.minValue := congrArg UInt32.toInt32 hmin
    rw [if_pos hmin, hn]
    rfl
  · rw [if_neg hmin]
    have hn : n ≠ Int32.minValue := by
      rintro rfl
      exact hmin rfl
    by_cases hzero : n = 0
    · rw [if_pos hzero, hzero]
      rfl
    · rw [if_neg hzero]
      simp only [copied_eq]
      have hnonneg : 0 ≤ (if n < 0 then (-n, true) else (n, false)).1.toInt := by
        rw [(without_sign hn).1]
        exact Int.natCast_nonneg _
      have hprinted := printed_decimal hzero hn decDigit_eq
      rw [← positiveLoop_eq hnonneg] at hprinted
      exact hprinted

theorem itoa_sixteen (hn : 0 ≤ n) : itoa n 16 = some (hexadecimal n.toUInt32) := by
  have hge : 0 ≤ n.toInt := Int32.le_iff_toInt_le.mp hn
  have hsign : ¬ (n < 0 ∧ (16 : Int32) = 10) := fun h => absurd h.2 (by decide)
  have hchar : ∀ rem : Int32, 0 ≤ rem.toInt → rem.toInt < (16 : Nat) →
      itoaDigit rem = hexChar false rem.toInt.toNat :=
    char_of_table le_rfl (by decide)
  unfold itoa
  by_cases hzero : n = 0
  · rw [if_pos hzero, hzero]
    rfl
  · have hvalue : n.toInt = n.toUInt32.toNat := by
      have hint := toInt_toInt32 n.toUInt32
      rw [Int32.toInt32_toUInt32] at hint
      have hlt := n.toUInt32.toNat_lt
      split at hint
      · exact hint
      · omega
    have hne : n.toUInt32.toNat ≠ 0 := by
      intro h
      rw [h] at hvalue
      exact hzero (Int32.toInt_inj.mp hvalue)
    have hlength : (Nat.digits 16 n.toInt.toNat).length < 33 := by
      have hlt : n.toInt.toNat < 16 ^ 8 := by
        have hmost := n.toInt_lt
        omega
      have hdigits := (Nat.digits_length_le_iff (show 1 < 16 by decide) n.toInt.toNat).mpr hlt
      omega
    have hloop := @digitLoop_eq 16 n itoaDigit (hexChar false) 16 (by decide)
      (by decide) hchar 33 [] hge hlength
    rw [if_neg hzero, if_neg hsign]
    dsimp only
    rw [hloop]
    have hreturned : some (reversed ([] ++ (Nat.digits 16 n.toInt.toNat).map (hexChar false))) =
        some (hexadecimal n.toUInt32) := by
      rw [reversed_eq, hexadecimal, Numeral.text, Numeral.digits_of_ne_zero hne, hvalue, Int.toNat_natCast,
        nil_append]
    exact hreturned

theorem digitLoop_negative {fuel : Nat} {str str' : List UInt8} (hn : n.toInt < 0)
    (h : digitLoop 16 itoaDigit fuel n str = some str') : ∃ cs c, str' = cs ++ [c] ∧ c.toNat < 48 := by
  induction fuel generalizing n str with
  | zero => cases h
  | succ fuel ih =>
    have hzero : n ≠ 0 := by
      rintro rfl
      exact absurd hn (by decide)
    obtain ⟨m, hm⟩ : ∃ m : Nat, n.toInt = -(m : Int) := ⟨n.toInt.natAbs, by omega⟩
    have hdiv : (n / 16).toInt = -((m / 16 : Nat) : Int) := by
      rw [toInt_div_base (show 1 < 16 by decide) (by decide), hm, Int.neg_tdiv]
      rfl
    have hmod : (n % 16).toInt = -((m % 16 : Nat) : Int) := by
      have h16 : (16 : Int32).toInt = 16 := by decide
      rw [Int32.toInt_mod, h16, hm, Int.neg_tmod]
      rfl
    rw [digitLoop, if_pos hzero] at h
    by_cases hlast : n / 16 = 0
    · rw [hlast] at h
      cases fuel with
      | zero => cases h
      | succ fuel =>
        refine ⟨str, _, (some.inj h).symm, ?_⟩
        have hsmall : m / 16 = 0 := by
          rw [hlast] at hdiv
          have h0 : (0 : Int32).toInt = 0 := by decide
          omega
        have hrem : n % 16 = Int32.ofInt (-((m % 16 : Nat) : Int)) := by
          rw [← hmod, Int32.ofInt_toInt]
        have htable : ∀ k : Nat, k < 16 → 0 < k → (itoaDigit (Int32.ofInt (-(k : Int)))).toNat < 48 := by
          decide
        rw [hrem]
        exact htable (m % 16) (by omega) (by omega)
    · refine ih ?_ h
      have hne : (n / 16).toInt ≠ 0 := fun h0 => hlast (Int32.toInt_inj.mp h0)
      omega

theorem itoa_sixteen_negative (hn : n < 0) : itoa n 16 ≠ some (hexadecimal n.toUInt32) := by
  have hneg : n.toInt < 0 := Int32.lt_iff_toInt_lt.mp hn
  have hsign : ¬ (n < 0 ∧ (16 : Int32) = 10) := fun h => absurd h.2 (by decide)
  have hzero : n ≠ 0 := by
    rintro rfl
    exact absurd hneg (by decide)
  intro h
  unfold itoa at h
  rw [if_neg hzero, if_neg hsign] at h
  dsimp only at h
  cases hloop : digitLoop 16 itoaDigit 33 n [] with
  | none =>
    rw [hloop] at h
    cases h
  | some str' =>
    obtain ⟨cs, c, rfl, hc⟩ := digitLoop_negative hneg hloop
    rw [hloop] at h
    have htext : reversed (cs ++ [c]) = hexadecimal n.toUInt32 := some.inj h
    have hmem : c ∈ hexadecimal n.toUInt32 := by
      rw [← htext, reversed_eq, mem_reverse]
      exact mem_append_right cs mem_cons_self
    obtain ⟨d, hd, rfl⟩ := Numeral.mem_text (by decide) hmem
    have hdigit : ∀ d < 16, ¬ (hexChar false d).toNat < 48 := by decide
    exact hdigit d hd hc

theorem printDec_decimal (n : Int32) (args : Args) (hword : args.word 0 = n.toUInt32) :
    Produces (numberFormat false false 0 'd'.toUInt8 (by decide)) args (decimal n.toInt) := by
  have hproduces := @produces_dec true 0 false false 'd'.toUInt8 args (by decide) (by decide) (by decide)
  have hint : intOf (args.word 0) true = n.toInt := by
    rw [hword]
    rfl
  have htext : padded (Int32.ofNat 0) (false && !false) (signText n.toInt ++ digitText n.toInt) =
      decimal n.toInt := by
    exact congrArg (List.replicate · _ ++ _) (Nat.zero_sub _)
  rw [hint, htext] at hproduces
  exact hproduces

end Printers

structure Agree (n : Int32) : Prop where
  intToString : intToString n = some (decimal n.toInt)
  sysPrintInt : sysPrintInt n = some (decimal n.toInt)
  vsnprintf : ∀ string, Produces (numberFormat false false 0 'd'.toUInt8 (by decide))
    { word := fun _ => n.toUInt32
      string := string } (decimal n.toInt)
  itoaDec : itoa n 10 = some (decimal n.toInt)
  itoaHex : itoa n 16 = some (hexadecimal n.toUInt32)

theorem minValue_not_printed : intToString Int32.minValue ≠ some (decimal Int32.minValue.toInt) ∧
    itoa Int32.minValue 10 ≠ some (decimal Int32.minValue.toInt) := by
  decide

/-- The printers agree exactly for the numbers that are not negative; in base 10 only the most negative one differs.
-/
theorem agree_iff (n : Int32) :
    (Agree n ↔ 0 ≤ n) ∧ (intToString n = some (decimal n.toInt) ↔ n ≠ Int32.minValue) ∧
      sysPrintInt n = some (decimal n.toInt) ∧
      (∀ string, Produces (numberFormat false false 0 'd'.toUInt8 (by decide))
        { word := fun _ => n.toUInt32
          string := string } (decimal n.toInt)) ∧
      (itoa n 10 = some (decimal n.toInt) ↔ n ≠ Int32.minValue) ∧
      (itoa n 16 = some (hexadecimal n.toUInt32) ↔ 0 ≤ n) ∧
      parseInt (decimal n.toInt) = some n.toInt := by
  have hstring : intToString n = some (decimal n.toInt) ↔ n ≠ Int32.minValue := by
    refine ⟨?_, intToString_eq⟩
    rintro h rfl
    exact minValue_not_printed.1 h
  have hdec : itoa n 10 = some (decimal n.toInt) ↔ n ≠ Int32.minValue := by
    refine ⟨?_, itoa_ten⟩
    rintro h rfl
    exact minValue_not_printed.2 h
  have hhex : itoa n 16 = some (hexadecimal n.toUInt32) ↔ 0 ≤ n := by
    refine ⟨fun h => ?_, itoa_sixteen⟩
    by_contra hneg
    exact itoa_sixteen_negative (Int32.not_le.mp hneg) h
  have hprintf := fun string =>
    printDec_decimal n
      { word := fun _ => n.toUInt32
        string := string } rfl
  refine ⟨⟨fun h => hhex.mp h.itoaHex, fun h => ?_⟩, hstring, sysPrintInt_eq n, hprintf, hdec, hhex,
    parseInt_decimal n.toInt⟩
  have hmin : n ≠ Int32.minValue := by
    rintro rfl
    exact absurd h (by decide)
  exact
    { intToString := hstring.mpr hmin
      sysPrintInt := sysPrintInt_eq n
      vsnprintf := hprintf
      itoaDec := hdec.mpr hmin
      itoaHex := hhex.mpr h }

/-- The most negative number, and -1 in base 16. -/
theorem not_agree_minValue : ¬ Agree Int32.minValue ∧ ¬ Agree (-1) ∧ intToString Int32.minValue =
        some (['-', '.', '/', ',', ')', ',', '(', '-', '*', ',', '('].map Char.toUInt8) ∧
      itoa (-1) 16 = some ['/'.toUInt8] := by
  refine ⟨fun h => minValue_not_printed.1 h.intToString, fun h => ?_, by decide, by decide⟩
  have hhex := h.itoaHex
  revert hhex
  decide

end JexOs.IntText
