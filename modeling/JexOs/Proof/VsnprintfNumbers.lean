import JexOs.Proof.Vsnprintf

/-!
# Numbers as they are printed

Both padding loops fill on the left, also under `-`, and zeros come in front of the sign; without a width the
eight hexadecimal digits come out in reverse.
-/

namespace JexOs.Vsnprintf

open List

/-- The text for an unlimited size, of which a buffer gets as much as there is room for. -/
def Produces (fmt : CString) (args : Args) (text : List UInt8) : Prop :=
  ∀ n : Nat, vsnprintf (n + 1) fmt args = .ok (text.take n ++ [0], Int32.ofNat (text.take n).length)

def widthText (width : Nat) : List UInt8 := if width = 0 then [] else Numeral.text 10 decChar width

def flagText (left zero : Bool) : List UInt8 :=
  (if left then ['-'.toUInt8] else []) ++ if zero then ['0'.toUInt8] else []

theorem widthText_digit {width : Nat} {c : UInt8} (h : c ∈ widthText width) : ∃ d < 10, c = decChar d := by
  unfold widthText at h
  split at h
  · cases h
  · exact Numeral.mem_text (by decide) h

theorem decChar_ne_zero : ∀ d < 10, decChar d ≠ 0 := by decide

theorem flagText_ne_zero (left zero : Bool) : ∀ c ∈ flagText left zero, c ≠ 0 := by
  cases left <;> cases zero <;> exact all_iff_forall_prop.mp rfl

def numberFormat (left zero : Bool) (width : Nat) (spec : UInt8) (hspec : spec ≠ 0) : CString where
  chars := '%'.toUInt8 :: (flagText left zero ++ (widthText width ++ [spec]))
  nonzero := by
    intro c hc
    rcases mem_cons.mp hc with rfl | hc
    · decide
    rcases mem_append.mp hc with hc | hc
    · exact flagText_ne_zero left zero c hc
    rcases mem_append.mp hc with hc | hc
    · obtain ⟨d, hd, rfl⟩ := widthText_digit hc
      exact decChar_ne_zero d hd
    · obtain rfl := mem_singleton.mp hc
      exact hspec

section Formats

variable {left zero : Bool} {width : Nat} {spec : UInt8}

theorem Produces.unique {fmt : CString} {args : Args} {text text' : List UInt8} (h : Produces fmt args text)
    (h' : Produces fmt args text') : text = text' := by
  have heq := (h (max text.length text'.length)).symm.trans (h' (max text.length text'.length))
  obtain ⟨htext, -⟩ := Prod.mk.inj (Except.ok.inj heq)
  rw [take_of_length_le (Nat.le_max_left _ _), take_of_length_le (Nat.le_max_right _ _)] at htext
  exact append_cancel_right htext

theorem parseFlags_flagText {c : UInt8} {rest : List UInt8} (hc : c ≠ '-'.toUInt8 ∧ c ≠ '0'.toUInt8) :
    parseFlags false false (flagText left zero ++ c :: rest) = (left, zero, c :: rest) := by
  have hend : ∀ left zero, parseFlags left zero (c :: rest) = (left, zero, c :: rest) := by
    intro left zero
    rw [parseFlags, if_neg hc.1, if_neg hc.2]
  cases left <;> cases zero <;> exact hend _ _

theorem parseWidth_digits {ds : List Nat} {c : UInt8} (hds : ∀ d ∈ ds, d < 10)
    (hc : ¬ ('0'.toUInt8 ≤ c ∧ c ≤ '9'.toUInt8)) (rest : List UInt8) (width : Int32) :
    parseWidth width (ds.map decChar ++ c :: rest) =
      (ds.foldl (fun width d => width * 10 + Int32.ofNat d) width, c :: rest) := by
  induction ds generalizing width with
  | nil => exact if_neg hc
  | cons d ds ih =>
    have hdigit : ∀ d < 10, ('0'.toUInt8 ≤ decChar d ∧ decChar d ≤ '9'.toUInt8) ∧
        Int32.ofNat (decChar d).toNat - Int32.ofNat '0'.toNat = Int32.ofNat d := by decide
    obtain ⟨hrange, hvalue⟩ := hdigit d (hds d mem_cons_self)
    rw [map_cons, cons_append, parseWidth, if_pos hrange, hvalue,
      ih fun d' hd' => hds d' (mem_cons_of_mem d hd')]
    rfl

theorem widthText_value : ∀ width < 13, (if width = 0 then [] else (Numeral.digits 10 width).reverse).foldl
      (fun width d => width * 10 + Int32.ofNat d) (0 : Int32) = Int32.ofNat width := by
  decide

theorem parseConversion_number (hwidth : width < 13)
    (hspec : spec ≠ '-'.toUInt8 ∧ ¬ ('0'.toUInt8 ≤ spec ∧ spec ≤ '9'.toUInt8) ∧ spec ≠ 'l'.toUInt8) :
    parseConversion (flagText left zero ++ (widthText width ++ [spec])) =
      ({ zero := zero && !left
         width := Int32.ofNat width
         spec := spec }, [spec]) := by
  obtain ⟨hminus, hdigit, hlong⟩ := hspec
  have hzero : spec ≠ '0'.toUInt8 := by
    rintro rfl
    exact hdigit (by decide)
  -- the flags end in front of the width, whose first digit is not 0, or of the specifier
  have hflags : parseFlags false false (flagText left zero ++ (widthText width ++ [spec])) =
      (left, zero, widthText width ++ [spec]) := by
    by_cases hnone : width = 0
    · rw [widthText, if_pos hnone]
      exact parseFlags_flagText ⟨hminus, hzero⟩
    · have hfirst : ∀ width < 13, width ≠ 0 → ((Numeral.text 10 decChar width).head?.all fun c =>
          c ≠ '-'.toUInt8 ∧ c ≠ '0'.toUInt8) = true := by decide
      have hne : Numeral.text 10 decChar width ≠ [] := Numeral.text_ne_nil (by decide) width
      obtain ⟨c, rest, htext⟩ := exists_cons_of_ne_nil hne
      have hc := hfirst width hwidth hnone
      rw [htext] at hc
      rw [widthText, if_neg hnone, htext]
      exact parseFlags_flagText (of_decide_eq_true hc)
  have hwidth' : parseWidth 0 (widthText width ++ [spec]) = (Int32.ofNat width, [spec]) := by
    rw [← widthText_value width hwidth]
    by_cases hnone : width = 0
    · rw [widthText, if_pos hnone, if_pos hnone]
      exact parseWidth_digits (forall_mem_nil _) hdigit [] 0
    · rw [widthText, if_neg hnone, if_neg hnone, Numeral.text, ← map_reverse]
      refine parseWidth_digits (fun d hd => ?_) hdigit [] 0
      exact Numeral.digits_lt_base (by decide) d (mem_reverse.mp hd)
  unfold parseConversion
  rw [hflags]
  dsimp only
  rw [hwidth']
  rw [headD_cons, if_neg hlong]
  rfl

theorem number_spec (h : (∃ sign, specifier spec = .dec sign) ∨ ∃ upper, specifier spec = .hex upper) :
    spec ≠ '-'.toUInt8 ∧ ¬ ('0'.toUInt8 ≤ spec ∧ spec ≤ '9'.toUInt8) ∧ spec ≠ 'l'.toUInt8 := by
  have hletters : ∀ c ∈ ['d', 'i', 'u', 'x', 'X'].map Char.toUInt8,
      c ≠ '-'.toUInt8 ∧ ¬ ('0'.toUInt8 ≤ c ∧ c ≤ '9'.toUInt8) ∧ c ≠ 'l'.toUInt8 :=
    all_iff_forall_prop.mp rfl
  refine hletters spec ?_
  by_contra hmem
  simp only [map_cons, map_nil, mem_cons, not_mem_nil, or_false, not_or] at hmem
  obtain ⟨hd, hi, hu, hx, hX⟩ := hmem
  unfold specifier at h
  rw [if_neg (not_or.mpr ⟨hd, hi⟩), if_neg hu, if_neg hx, if_neg hX] at h
  rcases h with ⟨_, h⟩ | ⟨_, h⟩ <;>
  · split at h
    · cases h
    · split at h
      · cases h
      · split at h
        · cases h
        · split at h <;> cases h

theorem produces_number (hne : spec ≠ 0) (hwidth : width < 13)
    (hspec : spec ≠ '-'.toUInt8 ∧ ¬ ('0'.toUInt8 ≤ spec ∧ spec ≤ '9'.toUInt8) ∧ spec ≠ 'l'.toUInt8)
    (hfits : Conversion.Fits { zero := zero && !left, width := Int32.ofNat width, spec := spec })
    (args : Args) :
    Produces (numberFormat left zero width spec hne) args
      (convText args 0 { zero := zero && !left, width := Int32.ofNat width, spec := spec }) := by
  have hpieces : (numberFormat left zero width spec hne).pieces =
      [.conversion { zero := zero && !left, width := Int32.ofNat width, spec := spec }] := by
    unfold CString.pieces numberFormat
    rw [length_cons, pieces, if_neg (not_not_intro rfl), parseConversion_number hwidth hspec]
    generalize (flagText left zero ++ (widthText width ++ [spec])).length = fuel
    cases fuel <;> rfl
  intro n
  have hsafe : (numberFormat left zero width spec hne).Safe (n + 1) args := by
    unfold CString.Safe
    rw [hpieces]
    exact fun _ => ⟨hne, hfits, trivial⟩
  have htext : (numberFormat left zero width spec hne).text args =
      convText args 0 { zero := zero && !left, width := Int32.ofNat width, spec := spec } := by
    unfold CString.text
    rw [hpieces]
    exact append_nil _
  rw [← htext]
  exact vsnprintf_ok n hsafe

end Formats

def hexValue (upper : Bool) (c : UInt8) : Option Nat := (hexDigits upper).idxOf? c

/-- Without its spaces the text is a numeral of the value, and it is as wide as the field. -/
def IsHex (upper : Bool) (val : UInt32) (width : Nat) (text : List UInt8) : Prop :=
  Numeral.parse 16 (hexValue upper) (text.filter (· ≠ ' '.toUInt8)) = some val.toNat ∧ width ≤ text.length

section Hexadecimal

variable {upper zero left : Bool} {width : Nat} {val : UInt32}

theorem hexValue_hexChar : ∀ upper, ∀ d < 16, hexValue upper (hexChar upper d) = some d := by decide

theorem hexChar_ne_space : ∀ upper, ∀ d < 16, hexChar upper d ≠ ' '.toUInt8 := by decide

theorem parse_hex {ds : List Nat} (hds : ds ≠ []) (hlt : ∀ d ∈ ds, d < 16)
    (k : Nat) : Numeral.parse 16 (hexValue upper)
        ((List.replicate k ' '.toUInt8 ++ ds.map (hexChar upper)).filter (· ≠ ' '.toUInt8)) =
      some (Nat.ofDigits 16 ds.reverse) := by
  have hspaces : (List.replicate k ' '.toUInt8).filter (· ≠ ' '.toUInt8) = [] :=
    filter_replicate_of_neg (by decide)
  have hdigits : (ds.map (hexChar upper)).filter (· ≠ ' '.toUInt8) = ds.map (hexChar upper) := by
    refine filter_eq_self.mpr fun c hc => ?_
    obtain ⟨d, hd, rfl⟩ := mem_map.mp hc
    exact decide_eq_true (hexChar_ne_space upper d (hlt d hd))
  rw [filter_append, hspaces, hdigits, nil_append]
  exact Numeral.parse_map hds fun d hd => hexValue_hexChar upper d (hlt d hd)

theorem length_padded (width : Int32) (zero : Bool) (text : List UInt8) :
    (padded width zero text).length = max width.toInt.toNat text.length := by
  rw [padded, length_append, length_replicate]
  omega

def zeroFilled (k n : Nat) : List Nat := List.replicate k 0 ++ (Numeral.digits 16 n).reverse

theorem zeroFilled_lt {k n d : Nat} (hd : d ∈ zeroFilled k n) : d < 16 := by
  rcases mem_append.mp hd with hd | hd
  · rw [eq_of_mem_replicate hd]
    decide
  · exact Numeral.digits_lt_base (by decide) d (mem_reverse.mp hd)

theorem zeroFilled_ne_nil (k n : Nat) : zeroFilled k n ≠ [] :=
  append_ne_nil_of_right_ne_nil _ fun h =>
    Numeral.digits_ne_nil (by decide) n (reverse_eq_nil_iff.mp h)

theorem ofDigits_zeroFilled (k n : Nat) : Nat.ofDigits 16 (zeroFilled k n).reverse = n := by
  rw [zeroFilled, reverse_append, reverse_reverse, reverse_replicate,
    Nat.ofDigits_append_replicate_zero, Numeral.ofDigits_digits]

theorem padded_zeros (width : Int32) (n : Nat) :
    ∃ k, padded width true (Numeral.text 16 (hexChar upper) n) = (zeroFilled k n).map (hexChar upper) := by
  have hzero : '0'.toUInt8 = hexChar upper 0 := by
    cases upper <;> rfl
  refine ⟨width.toInt.toNat - (Numeral.text 16 (hexChar upper) n).length, ?_⟩
  rw [padded, zeroFilled, map_append, map_replicate, ← hzero, map_reverse]
  rfl

theorem isHex_padded (hwidth : width < 2 ^ 31) :
    IsHex upper val width (padded (Int32.ofNat width) zero (Numeral.text 16 (hexChar upper) val.toNat)) := by
  have hint : (Int32.ofNat width).toInt = width := Int32.toInt_ofNat_of_lt hwidth
  refine ⟨?_, ?_⟩
  · cases zero with
    | false =>
      have hparse := fun k =>
        @parse_hex upper _ (zeroFilled_ne_nil 0 val.toNat) (fun d => zeroFilled_lt) k
      rw [ofDigits_zeroFilled] at hparse
      rw [padded, Numeral.text, ← map_reverse]
      exact hparse _
    | true =>
      obtain ⟨k, hzeros⟩ := @padded_zeros upper (Int32.ofNat width) val.toNat
      have hparse := @parse_hex upper _ (zeroFilled_ne_nil k val.toNat) (fun d => zeroFilled_lt) 0
      rw [ofDigits_zeroFilled] at hparse
      rw [hzeros]
      exact hparse
  · rw [length_padded, hint]
    omega

theorem isHex_reversed_iff : IsHex upper val 0 ((Nat.digitsAppend 16 8 val.toNat).map (hexChar upper)) ↔
      (Nat.digitsAppend 16 8 val.toNat).reverse = Nat.digitsAppend 16 8 val.toNat := by
  have hlength := Nat.length_digitsAppend (show 1 < 16 by decide) 8 val.toNat_lt
  have hdigits : ∀ d ∈ Nat.digitsAppend 16 8 val.toNat, d < 16 := fun d hd =>
    Nat.lt_of_mem_digitsAppend (by decide) 8 d hd
  have hne : Nat.digitsAppend 16 8 val.toNat ≠ [] := by
    intro h
    rw [h] at hlength
    cases hlength
  have hparse := @parse_hex upper _ hne hdigits 0
  rw [replicate_zero, nil_append] at hparse
  have hlength' : (Nat.digitsAppend 16 8 val.toNat).reverse.length = 8 := by
    rw [length_reverse]
    exact hlength
  have hlt : val.toNat < 16 ^ (Nat.digitsAppend 16 8 val.toNat).reverse.length := by
    rw [hlength']
    exact val.toNat_lt
  have hiff := Numeral.ofDigits_eq_iff (show 1 < 16 by decide) (fun d hd => hdigits d (mem_reverse.mp hd)) hlt
  rw [hlength'] at hiff
  unfold IsHex
  rw [hparse]
  exact ⟨fun h => hiff.mp (Option.some.inj h.1), fun h => ⟨congrArg some (hiff.mpr h), Nat.zero_le _⟩⟩

def pointerFormat : CString where
  chars := ['%'.toUInt8, 'p'.toUInt8]
  nonzero := all_iff_forall_prop.mp rfl

theorem produces_pointer (args : Args) : Produces pointerFormat args (['0'.toUInt8, 'x'.toUInt8] ++
      padded 8 true (Numeral.text 16 (hexChar false) (args.word 0).toNat)) := by
  intro n
  have hsafe : pointerFormat.Safe (n + 1) args := fun _ => ⟨by decide, trivial, trivial⟩
  have htext : pointerFormat.text args = ['0'.toUInt8, 'x'.toUInt8] ++
      padded 8 true (hexText (args.word 0) false 8) := append_nil _
  rw [hexText, if_neg (by decide)] at htext
  rw [← htext]
  exact vsnprintf_ok n hsafe

/-- What `%x` prints is a numeral with a width, and without one where the eight digits read the same from both ends.
-/
theorem hex_iff (left zero : Bool) (width : Nat) (spec : UInt8) (upper : Bool) (args : Args) (hne : spec ≠ 0)
    (hspec : specifier spec = .hex upper) (hwidth : width ≤ 10) :
    ((∃ text, Produces (numberFormat left zero width spec hne) args text ∧
      IsHex upper (args.word 0) width text) ↔
      width ≠ 0 ∨ (Nat.digitsAppend 16 8 (args.word 0).toNat).reverse =
      Nat.digitsAppend 16 8 (args.word 0).toNat) ∧
      ∃ digits : List UInt8, Produces pointerFormat args (['0'.toUInt8, 'x'.toUInt8] ++ digits) ∧
        digits.length = 8 ∧ Numeral.parse 16 (hexValue false) digits = some (args.word 0).toNat := by
  have hwidth31 : width < 2 ^ 31 := by omega
  have hint : (Int32.ofNat width).toInt = width := Int32.toInt_ofNat_of_lt hwidth31
  have hfits : Conversion.Fits { zero := zero && !left, width := Int32.ofNat width, spec := spec } := by
    unfold Conversion.Fits
    rw [hspec, hint]
    exact Int.ofNat_le.mpr hwidth
  have hproduces := produces_number hne (show width < 13 by omega)
    (number_spec (.inr ⟨upper, hspec⟩)) hfits args
  unfold convText at hproduces
  rw [hspec] at hproduces
  dsimp only at hproduces
  refine ⟨?_, _, produces_pointer args, ?_, ?_⟩
  · by_cases hnone : width = 0
    · have htext : padded (Int32.ofNat width) (zero && !left)
        (hexText (args.word 0) upper (Int32.ofNat width)) =
          (Nat.digitsAppend 16 8 (args.word 0).toNat).map (hexChar upper) := by
        rw [hnone, hexText, if_pos (show Int32.ofNat 0 = 0 from rfl), padded]
        exact congrArg (List.replicate · _ ++ _) (Nat.zero_sub _)
      rw [htext] at hproduces
      have hiff := @isHex_reversed_iff upper (args.word 0)
      constructor
      · rintro ⟨text, htext', hhex⟩
        obtain rfl := htext'.unique hproduces
        rw [hnone] at hhex
        exact .inr (hiff.mp hhex)
      · rintro (hwidth' | hreverse)
        · exact absurd hnone hwidth'
        · refine ⟨_, hproduces, ?_⟩
          rw [hnone]
          exact hiff.mpr hreverse
    · have hzero : Int32.ofNat width ≠ 0 := by
        intro h
        rw [h] at hint
        exact hnone (Int.ofNat_inj.mp hint.symm)
      rw [hexText, if_neg hzero] at hproduces
      exact ⟨fun _ => .inl hnone, fun _ => ⟨_, hproduces, isHex_padded hwidth31⟩⟩
  · rw [length_padded]
    exact Nat.max_eq_left (Numeral.length_text_le (by decide) (by decide) (args.word 0).toNat_lt)
  · obtain ⟨k, hzeros⟩ := @padded_zeros false 8 (args.word 0).toNat
    have hchars : ∀ d ∈ zeroFilled k (args.word 0).toNat, hexValue false (hexChar false d) = some d :=
      fun d hd => hexValue_hexChar false d (zeroFilled_lt hd)
    rw [hzeros, Numeral.parse_map (zeroFilled_ne_nil k _) hchars, ofDigits_zeroFilled]

def trialArgs (val : UInt32) : Args where
  word := fun _ => val
  string := fun _ =>
    { chars := []
      nonzero := forall_mem_nil _ }

theorem hex_iff_trial : (∃ text,
      Produces (numberFormat false true 8 'X'.toUInt8 (by decide)) (trialArgs 0xABC) text ∧
        IsHex true 0xABC 8 text) ∧
      ∃ digits : List UInt8, Produces pointerFormat (trialArgs 0xABC) (['0'.toUInt8, 'x'.toUInt8] ++ digits) ∧
          digits.length = 8 ∧ Numeral.parse 16 (hexValue false) digits = some 0xABC := by
  obtain ⟨hiff, hpointer⟩ :=
    hex_iff false true 8 'X'.toUInt8 true (trialArgs 0xABC) (by decide) (by decide) (by decide)
  exact ⟨hiff.mpr (.inl (by decide)), hpointer⟩

/-- For `%x` and the value 0x12345678 the text is 87654321. -/
theorem not_hex_reversed : Produces (numberFormat false false 0 'x'.toUInt8 (by decide)) (trialArgs 0x12345678)
        (['8', '7', '6', '5', '4', '3', '2', '1'].map Char.toUInt8) ∧
      ¬ ∃ text, Produces (numberFormat false false 0 'x'.toUInt8 (by decide)) (trialArgs 0x12345678) text ∧
        IsHex false 0x12345678 0 text := by
  have hproduces : Produces (numberFormat false false 0 'x'.toUInt8 (by decide)) (trialArgs 0x12345678)
      (['8', '7', '6', '5', '4', '3', '2', '1'].map Char.toUInt8) := by
    have hfits : Conversion.Fits { zero := false && !false, width := Int32.ofNat 0, spec := 'x'.toUInt8 } := by
      have hwidth : (Int32.ofNat 0).toInt ≤ 10 := by decide
      exact hwidth
    exact produces_number (by decide) (by decide) (by decide) hfits (trialArgs 0x12345678)
  refine ⟨hproduces, ?_⟩
  rintro ⟨text, htext, hparse, -⟩
  obtain rfl := htext.unique hproduces
  revert hparse
  decide

end Hexadecimal

def intOf (val : UInt32) (sign : Bool) : Int := if sign then val.toInt32.toInt else val.toNat

def signText (n : Int) : List UInt8 := if n < 0 then ['-'.toUInt8] else []

def digitText (n : Int) : List UInt8 := Numeral.text 10 decChar n.natAbs

/-- Spaces behind the numeral with the flag `-`, zeros behind the sign with the flag 0, and otherwise spaces in
front. -/
def standardDec (left zero : Bool) (width : Nat) (n : Int) : List UInt8 :=
  let fill := width - (signText n ++ digitText n).length
  if left then signText n ++ digitText n ++ List.replicate fill ' '.toUInt8
  else if zero then signText n ++ List.replicate fill '0'.toUInt8 ++ digitText n
  else List.replicate fill ' '.toUInt8 ++ (signText n ++ digitText n)

section Decimal

variable {left zero sign : Bool} {width : Nat} {val : UInt32}

theorem toInt_toInt32 (val : UInt32) :
    val.toInt32.toInt = if val.toNat < 2 ^ 31 then (val.toNat : Int) else val.toNat - 2 ^ 32 := by
  have hint : val.toInt32.toInt = val.toBitVec.toInt := rfl
  rw [hint, BitVec.toInt_eq_toNat_cond, UInt32.toNat_toBitVec]
  refine if_congr ?_ rfl rfl
  omega

theorem magnitude_eq (val : UInt32) (sign : Bool) : ((magnitude val sign).2 = true ↔ intOf val sign < 0) ∧
      (magnitude val sign).1.toNat = (intOf val sign).natAbs := by
  cases sign with
  | false =>
    have hnonneg : ¬ intOf val false < 0 := Int.not_lt.mpr (Int.natCast_nonneg _)
    exact ⟨⟨fun h => absurd h Bool.false_ne_true, fun h => absurd h hnonneg⟩, rfl⟩
  | true =>
    have hint := toInt_toInt32 val
    have hlt := val.toNat_lt
    have hintOf : intOf val true = val.toInt32.toInt := rfl
    have hneg : val.toInt32 < 0 ↔ val.toInt32.toInt < 0 := Int32.lt_iff_toInt_lt
    unfold magnitude
    rw [hintOf]
    by_cases hsign : val.toInt32 < 0
    · rw [if_pos ⟨rfl, hsign⟩]
      refine ⟨⟨fun _ => hneg.mp hsign, fun _ => rfl⟩, ?_⟩
      have hbig := hneg.mp hsign
      rw [hint] at hbig ⊢
      split at hbig
      · omega
      · rename_i hge
        by_cases hmin : val.toInt32 = (0x80000000 : UInt32).toInt32
        · have hval : val = 0x80000000 := congrArg Int32.toUInt32 hmin
          rw [if_pos hmin, hval]
          rfl
        · have hopposite : (-val.toInt32).toUInt32 = -val := rfl
          rw [if_neg hmin, hopposite, UInt32.toNat_neg]
          have hsize : UInt32.size = 2 ^ 32 := rfl
          rw [hsize, Nat.mod_eq_of_lt (by omega)]
          omega
    · rw [if_neg fun h => hsign h.2]
      have hnonneg := mt hneg.mpr hsign
      refine ⟨⟨fun h => absurd h Bool.false_ne_true, fun h => absurd h hnonneg⟩, ?_⟩
      rw [hint] at hnonneg ⊢
      split at hnonneg
      · rename_i hsmall
        rw [if_pos hsmall]
        rfl
      · omega

theorem decText_eq (val : UInt32) (sign : Bool) :
    decText val sign = signText (intOf val sign) ++ digitText (intOf val sign) := by
  obtain ⟨hneg, hvalue⟩ := magnitude_eq val sign
  unfold decText signText digitText
  rw [hvalue]
  exact congrArg (· ++ _) (if_congr hneg rfl rfl)

theorem head_numeral (n : Int) : ∃ c rest, signText n ++ digitText n = c :: rest ∧ c ≠ ' '.toUInt8 := by
  unfold signText
  split
  · exact ⟨_, _, rfl, by decide⟩
  · have hne : digitText n ≠ [] := Numeral.text_ne_nil (by decide) _
    obtain ⟨c, rest, hcons⟩ := exists_cons_of_ne_nil hne
    have hmem : c ∈ digitText n := hcons ▸ mem_cons_self
    obtain ⟨d, hd, rfl⟩ := Numeral.mem_text (by decide) hmem
    have hspace : ∀ d < 10, decChar d ≠ ' '.toUInt8 := by decide
    exact ⟨_, _, hcons, hspace d hd⟩

/-- Nothing is filled up, or it is on the right side and with no zeros in front of a sign. -/
def Standard (left zero : Bool) (width : Nat) (n : Int) : Prop :=
  width ≤ (signText n ++ digitText n).length ∨ (left = false ∧ (zero = false ∨ 0 ≤ n))

theorem padded_eq_iff (n : Int) (hwidth : width < 2 ^ 31) :
    padded (Int32.ofNat width) (zero && !left) (signText n ++ digitText n) = standardDec left zero width n ↔
      Standard left zero width n := by
  have hint : (Int32.ofNat width).toInt = width := Int32.toInt_ofNat_of_lt hwidth
  obtain ⟨c, rest, hnumeral, hspace⟩ := head_numeral n
  unfold padded standardDec Standard
  rw [hint, Int.toNat_natCast]
  by_cases hfill : width ≤ (signText n ++ digitText n).length
  · rw [Nat.sub_eq_zero_of_le hfill]
    refine ⟨fun _ => .inl hfill, fun _ => ?_⟩
    cases left <;> cases zero <;> simp
  · obtain ⟨k, hk⟩ := Nat.exists_eq_succ_of_ne_zero (Nat.sub_ne_zero_of_lt (Nat.lt_of_not_le hfill))
    rw [hk]
    cases left with
    | true =>
      rw [Bool.not_true, Bool.and_false, if_neg Bool.false_ne_true, if_pos rfl, hnumeral, replicate_succ]
      refine ⟨fun h => absurd (cons.inj h).1.symm hspace, ?_⟩
      rintro (h | ⟨h, -⟩)
      · exact absurd (hnumeral ▸ h) hfill
      · cases h
    | false =>
      cases zero with
      | false => exact ⟨fun _ => .inr ⟨rfl, .inl rfl⟩, fun _ => rfl⟩
      | true =>
        unfold signText
        by_cases hneg : n < 0
        · rw [if_pos hneg, replicate_succ]
          have hminus : '0'.toUInt8 ≠ '-'.toUInt8 := by decide
          refine ⟨fun h => absurd (cons.inj h).1 hminus, ?_⟩
          rintro (h | ⟨-, h | h⟩)
          · rw [signText, if_pos hneg] at hfill
            exact absurd h hfill
          · cases h
          · omega
        · rw [if_neg hneg]
          exact ⟨fun _ => .inr ⟨rfl, .inr (by omega)⟩, fun _ => rfl⟩

theorem produces_dec (left zero : Bool) {spec : UInt8} (args : Args) (hne : spec ≠ 0)
    (hspec : specifier spec = .dec sign) (hwidth : width ≤ 12) :
    Produces (numberFormat left zero width spec hne) args
      (padded (Int32.ofNat width) (zero && !left)
        (signText (intOf (args.word 0) sign) ++ digitText (intOf (args.word 0) sign))) := by
  have hint : (Int32.ofNat width).toInt = width := Int32.toInt_ofNat_of_lt (by omega)
  have hfits : Conversion.Fits { zero := zero && !left, width := Int32.ofNat width, spec := spec } := by
    unfold Conversion.Fits
    rw [hspec, hint]
    exact Int.ofNat_le.mpr hwidth
  have hproduces := produces_number hne (show width < 13 by omega)
    (number_spec (.inl ⟨sign, hspec⟩)) hfits args
  unfold convText at hproduces
  rw [hspec] at hproduces
  dsimp only at hproduces
  rw [decText_eq] at hproduces
  exact hproduces

/-- `%d` is standard exactly where nothing is filled up, or it is on the right side with no zeros before a sign. -/
theorem dec_iff (left zero : Bool) (width : Nat) (spec : UInt8) (sign : Bool) (args : Args) (hne : spec ≠ 0)
    (hspec : specifier spec = .dec sign) (hwidth : width ≤ 12) :
    Produces (numberFormat left zero width spec hne) args
        (standardDec left zero width (intOf (args.word 0) sign)) ↔
      Standard left zero width (intOf (args.word 0) sign) := by
  have hproduces := produces_dec left zero args hne hspec hwidth
  rw [← padded_eq_iff _ (show width < 2 ^ 31 by omega)]
  constructor
  · intro hstandard
    exact hproduces.unique hstandard
  · intro heq
    rw [← heq]
    exact hproduces

theorem dec_iff_trial : Produces (numberFormat false true 5 'd'.toUInt8 (by decide)) (trialArgs 42)
        (standardDec false true 5 (intOf 42 true)) :=
  (dec_iff false true 5 'd'.toUInt8 true (trialArgs 42) (by decide) (by decide) (by decide)).mpr
    (.inr ⟨rfl, .inr (by decide)⟩)

/-- For `%05d` and -5 the text is 000-5, and for `%-5d` and 42 there are spaces in front. -/
theorem not_standard_dec : Produces (numberFormat false true 5 'd'.toUInt8 (by decide)) (trialArgs 0xFFFFFFFB)
        (['0', '0', '0', '-', '5'].map Char.toUInt8) ∧
      ¬ Produces (numberFormat false true 5 'd'.toUInt8 (by decide)) (trialArgs 0xFFFFFFFB)
        (standardDec false true 5 (-5)) ∧
        Produces (numberFormat true false 5 'd'.toUInt8 (by decide)) (trialArgs 42)
        ([' ', ' ', ' ', '4', '2'].map Char.toUInt8) ∧
      ¬ Produces (numberFormat true false 5 'd'.toUInt8 (by decide)) (trialArgs 42)
        (standardDec true false 5 42) := by
  have hfits : ∀ left zero,
      Conversion.Fits { zero := zero && !left, width := Int32.ofNat 5, spec := 'd'.toUInt8 } := by
    intro left zero
    have hwidth : (Int32.ofNat 5).toInt ≤ 12 := by decide
    exact hwidth
  have hzeros : Produces (numberFormat false true 5 'd'.toUInt8 (by decide)) (trialArgs 0xFFFFFFFB)
      (['0', '0', '0', '-', '5'].map Char.toUInt8) :=
    produces_number (by decide) (by decide) (by decide) (hfits false true) _
  have hspaces : Produces (numberFormat true false 5 'd'.toUInt8 (by decide)) (trialArgs 42)
      ([' ', ' ', ' ', '4', '2'].map Char.toUInt8) :=
    produces_number (by decide) (by decide) (by decide) (hfits true false) _
  refine ⟨hzeros, fun h => ?_, hspaces, fun h => ?_⟩
  · have heq := hzeros.unique h
    revert heq
    decide
  · have heq := hspaces.unique h
    revert heq
    decide

end Decimal

end JexOs.Vsnprintf
