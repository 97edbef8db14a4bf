import JexOs.Vsnprintf
import JexOs.Lib.Numeral

/-!
# What is formatted

The characters that a format and its arguments stand for, of which a run with a buffer writes as many as there is
room for. It faults where a conversion that is reached ends with the format, or is too wide.
-/

namespace JexOs.Vsnprintf

open List

section Loops

variable {size : Nat} {out tmp : List UInt8} {cs cs' : List UInt8}

def stored (size : Nat) (cs out : List UInt8) : List UInt8 := out ++ cs.take (size - 1 - out.length)

theorem stored_of_full (h : size - 1 ≤ out.length) : stored size cs out = out := by
  rw [stored, Nat.sub_eq_zero_of_le h, take_zero, append_nil]

theorem stored_append (size : Nat) (cs cs' out : List UInt8) :
    stored size cs' (stored size cs out) = stored size (cs ++ cs') out := by
  unfold stored
  rw [take_append, append_assoc, length_append, length_take]
  congr 3
  omega

theorem length_stored (size : Nat) (cs out : List UInt8) (h : out.length ≤ size - 1) :
    (stored size cs out).length = min (size - 1) (out.length + cs.length) := by
  rw [stored, length_append, length_take]
  omega

theorem store_ok {c : UInt8} (h : out.length < size - 1) : store size out c = .ok (stored size [c] out) := by
  have hone : [c].take (size - 1 - out.length) = [c] :=
    take_of_length_le (show 1 ≤ size - 1 - out.length by omega)
  rw [stored, hone]
  exact if_pos (by omega)

theorem emit_eq (size : Nat) (cs out : List UInt8) : emit size cs out = .ok (stored size cs out) := by
  induction cs generalizing out with
  | nil =>
    rw [stored, take_nil, append_nil]
    rfl
  | cons c cs ih =>
    rw [emit]
    by_cases hroom : out.length < size - 1
    · rw [if_pos hroom, store_ok hroom]
      exact (ih _).trans (congrArg Except.ok (stored_append size [c] cs out))
    · rw [if_neg hroom, stored_of_full (Nat.le_of_not_lt hroom)]

theorem push_ok {c : UInt8} (h : tmp.length < size) : push size tmp c = .ok (tmp ++ [c]) := if_pos h

theorem padLoop_eq {width : Int32} {c : UInt8} {fuel : Nat} (h : tmp.length ≤ size)
    (hfuel : size - tmp.length < fuel) : padLoop size width c fuel tmp =
      if width.toInt ≤ size then .ok (tmp ++ List.replicate (width.toInt.toNat - tmp.length) c)
      else .error .scratch := by
  induction fuel generalizing tmp with
  | zero => omega
  | succ fuel ih =>
    rw [padLoop]
    by_cases hshort : (tmp.length : Int) < width.toInt
    · rw [if_pos hshort]
      by_cases hfull : tmp.length < size
      · have hlength : (tmp ++ [c]).length = tmp.length + 1 := length_append
        rw [push_ok hfull]
        refine (ih (by omega) (by omega)).trans ?_
        have hcount : width.toInt.toNat - tmp.length = width.toInt.toNat - (tmp ++ [c]).length + 1 := by
          omega
        rw [hcount, replicate_succ, append_assoc]
        rfl
      · have hpush : push size tmp c = .error .scratch := if_neg hfull
        rw [hpush, if_neg (by omega)]
        rfl
    · rw [if_neg hshort, if_pos (by omega), show width.toInt.toNat - tmp.length = 0 by omega,
        replicate_zero, append_nil]

theorem pad_eq {width : Int32} {zero : Bool} (h : tmp.length ≤ size) : pad size width zero tmp =
      if width.toInt ≤ size then
        .ok (tmp ++ List.replicate (width.toInt.toNat - tmp.length) (if zero then '0'.toUInt8
        else ' '.toUInt8))
      else .error .scratch := by
  cases zero with
  | false => exact padLoop_eq h (by omega)
  | true =>
    unfold pad
    rw [if_pos rfl, padLoop_eq h (by omega)]
    by_cases hwidth : width.toInt ≤ size
    · rw [if_pos hwidth, if_pos hwidth]
      have hlength : (tmp ++ List.replicate (width.toInt.toNat - tmp.length) '0'.toUInt8).length =
          tmp.length + (width.toInt.toNat - tmp.length) := by
        rw [length_append, length_replicate]
      have hnone : width.toInt.toNat - (tmp.length + (width.toInt.toNat - tmp.length)) = 0 := by omega
      refine (padLoop_eq (by omega) (by omega)).trans ?_
      rw [if_pos hwidth, hlength, hnone, replicate_zero, append_nil]
      rfl
    · rw [if_neg hwidth, if_neg hwidth]
      rfl

theorem digitLoop_eq {b : Nat} {digit : UInt32 → UInt8} {next : UInt32 → UInt32} {char : Nat → UInt8}
    (hb : 1 < b) (hdigit : ∀ v, digit v = char (v.toNat % b))
    (hnext : ∀ v, (next v).toNat = v.toNat / b) {fuel : Nat} {val : UInt32}
    (h : tmp.length + (Numeral.digits b val.toNat).length ≤ size)
    (hfuel : (Numeral.digits b val.toNat).length ≤ fuel) : digitLoop size digit next fuel val tmp =
      .ok (tmp ++ (Numeral.digits b val.toNat).map char) := by
  induction fuel generalizing val tmp with
  | zero => exact absurd (eq_nil_of_length_eq_zero (Nat.le_zero.mp hfuel)) (Numeral.digits_ne_nil hb _)
  | succ fuel ih =>
    have hdigits := Numeral.digits_eq hb val.toNat
    rw [hdigits] at h hfuel ⊢
    rw [length_cons] at h hfuel
    rw [digitLoop, push_ok (by omega), hdigit]
    have hzero : next val > 0 ↔ ¬ val.toNat / b = 0 := by
      rw [← hnext]
      exact UInt32.lt_iff_toNat_lt.trans Nat.pos_iff_ne_zero
    by_cases hq : val.toNat / b = 0
    · rw [if_pos hq]
      exact if_neg (not_not_intro hq ∘ hzero.mp)
    · rw [if_neg hq, ← hnext] at h hfuel ⊢
      refine (if_pos (hzero.mpr hq)).trans ((ih ?_ (by omega)).trans ?_)
      · rw [length_append, length_singleton]
        omega
      · rw [append_assoc]
        rfl

end Loops

def decChar (d : Nat) : UInt8 := '0'.toUInt8 + UInt8.ofNat d

def hexChar (upper : Bool) (d : Nat) : UInt8 := (hexDigits upper).getD d 0

def padded (width : Int32) (zero : Bool) (text : List UInt8) : List UInt8 :=
  List.replicate (width.toInt.toNat - text.length) (if zero then '0'.toUInt8 else ' '.toUInt8) ++ text

theorem pad_text {size : Nat} {text : List UInt8} {width : Int32} {zero : Bool} (h : text.length ≤ size) :
    pad size width zero text.reverse =
      if width.toInt ≤ size then .ok (padded width zero text).reverse else .error .scratch := by
  rw [pad_eq (by rwa [length_reverse]), padded, reverse_append, reverse_replicate, length_reverse]

def decText (val : UInt32) (sign : Bool) : List UInt8 :=
  (if (magnitude val sign).2 then ['-'.toUInt8] else []) ++
    Numeral.text 10 decChar (magnitude val sign).1.toNat

/-- Without a width there are eight digits, and the last one comes first. -/
def hexText (val : UInt32) (upper : Bool) (width : Int32) : List UInt8 :=
  if width = 0 then (Nat.digitsAppend 16 8 val.toNat).map (hexChar upper)
  else Numeral.text 16 (hexChar upper) val.toNat

section Numbers

variable {val : UInt32} {sign upper zero : Bool} {width : Int32}

theorem length_decDigits (val : UInt32) : (Numeral.digits 10 val.toNat).length ≤ 10 := by
  have hlt := val.toNat_lt
  exact Numeral.length_digits_le (by decide) (by decide) (by omega)

theorem length_hexDigits (val : UInt32) : (Numeral.digits 16 val.toNat).length ≤ 8 :=
  Numeral.length_digits_le (by decide) (by decide) val.toNat_lt

theorem length_decText (val : UInt32) (sign : Bool) : (decText val sign).length ≤ 11 := by
  have hdigits := length_decDigits (magnitude val sign).1
  rw [decText, length_append, Numeral.text, length_reverse, length_map]
  cases (magnitude val sign).2 with
  | false => exact (Nat.add_le_add_left hdigits _).trans (by decide)
  | true => exact Nat.add_le_add_left hdigits 1

theorem length_hexText (val : UInt32) (upper : Bool)
    (width : Int32) : (hexText val upper width).length ≤ 8 := by
  unfold hexText
  split
  · rw [length_map, Nat.length_digitsAppend (by decide) 8 val.toNat_lt]
  · exact Numeral.length_text_le (by decide) (by decide) val.toNat_lt

theorem decLoop_eq (val : UInt32) :
    digitLoop 12 (fun val => '0'.toUInt8 + (val % 10).toUInt8) (· / 10) 13 val [] =
      .ok ((Numeral.digits 10 val.toNat).map decChar) := by
  have hdigits := length_decDigits val
  refine digitLoop_eq (show 1 < 10 by decide) (fun v => ?_) (fun v => ?_) ?_ (by omega)
  · exact congrArg ('0'.toUInt8 + ·) (UInt8.toNat_inj.mp (by simp))
  · exact UInt32.toNat_div v 10
  · rw [length_nil]
    omega

theorem decTmp_eq (val : UInt32) (sign : Bool) (width : Int32) (zero : Bool) : decTmp val sign width zero =
      if width.toInt ≤ 12 then .ok (padded width zero (decText val sign)).reverse
      else .error .scratch := by
  have hlength := length_decText val sign
  have hdigits := length_decDigits (magnitude val sign).1
  have hdecTmp : decTmp val sign width zero =
      (digitLoop 12 (fun val => '0'.toUInt8 + (val % 10).toUInt8) (· / 10) 13 (magnitude val sign).1 [] >>=
        fun tmp =>
          if (magnitude val sign).2 then push 12 tmp '-'.toUInt8 >>= pad 12 width zero
          else pad 12 width zero tmp) := rfl
  rw [hdecTmp, decLoop_eq]
  refine Eq.trans ?_ (pad_text (show (decText val sign).length ≤ 12 by omega))
  unfold decText Numeral.text
  rw [reverse_append, reverse_reverse]
  cases (magnitude val sign).2 with
  | false => exact congrArg (pad 12 width zero) (append_nil _).symm
  | true =>
    have hroom : ((Numeral.digits 10 (magnitude val sign).1.toNat).map decChar).length < 12 := by
      rw [length_map]
      omega
    have hpush := push_ok (c := '-'.toUInt8) hroom
    exact congrArg (· >>= pad 12 width zero) hpush

theorem hexDigit_eq (upper : Bool) (v : UInt32) : hexDigit upper v = hexChar upper (v.toNat % 16) := by
  rw [hexDigit, hexChar, UInt32.toNat_and]
  exact congrArg ((hexDigits upper).getD · 0) (Nat.and_two_pow_sub_one_eq_mod v.toNat 4)

theorem hexLoop_eq (val : UInt32) (upper : Bool) : digitLoop 10 (hexDigit upper) (· >>> 4) 11 val [] =
      .ok ((Numeral.digits 16 val.toNat).map (hexChar upper)) := by
  have hdigits := length_hexDigits val
  refine digitLoop_eq (show 1 < 16 by decide) (fun v => ?_) (fun v => ?_) ?_ (by omega)
  · exact hexDigit_eq upper v
  · exact (UInt32.toNat_shiftRight v 4).trans (Nat.shiftRight_eq_div_pow v.toNat 4)
  · rw [length_nil]
    omega

theorem pushAll_eq {size : Nat} {is : List UInt32} {f : UInt32 → UInt8} {tmp : List UInt8}
    (h : tmp.length + is.length ≤ size) :
    is.foldlM (fun tmp i => push size tmp (f i)) tmp = .ok (tmp ++ is.map f) := by
  induction is generalizing tmp with
  | nil =>
    rw [map_nil, append_nil]
    rfl
  | cons i is ih =>
    rw [length_cons] at h
    rw [foldlM_cons, push_ok (by omega)]
    refine (ih ?_).trans ?_
    · rw [length_append, length_singleton]
      omega
    · rw [append_assoc]
      rfl

theorem hexEight_eq (val : UInt32) (upper : Bool) : ([7, 6, 5, 4, 3, 2, 1, 0] : List UInt32).foldlM
        (fun tmp i => push 10 tmp (hexDigit upper (val >>> (i * 4)))) [] =
      .ok ((Nat.digitsAppend 16 8 val.toNat).map (hexChar upper)).reverse := by
  have hdigit : ∀ i : UInt32, i ∈ ([7, 6, 5, 4, 3, 2, 1, 0] : List UInt32) →
      hexDigit upper (val >>> (i * 4)) = hexChar upper (val.toNat / 16 ^ i.toNat % 16) := by
    intro i hi
    have hshift : ∀ j ∈ ([7, 6, 5, 4, 3, 2, 1, 0] : List UInt32), (j * 4).toNat % 32 = 4 * j.toNat :=
      all_iff_forall_prop.mp rfl
    rw [hexDigit_eq, UInt32.toNat_shiftRight, hshift i hi, Nat.shiftRight_eq_div_pow, Nat.pow_mul]
  have hlt : val.toNat < 16 ^ 8 := val.toNat_lt
  rw [pushAll_eq (by decide), Numeral.digitsAppend_eq (show 1 < 16 by decide) hlt, map_congr_left hdigit]
  rfl

theorem hexTmp_eq (val : UInt32) (upper : Bool) (width : Int32) (zero : Bool) : hexTmp val upper width zero =
      if width.toInt ≤ 10 then .ok (padded width zero (hexText val upper width)).reverse
      else .error .scratch := by
  have hlength := length_hexText val upper width
  refine Eq.trans ?_ (pad_text (show (hexText val upper width).length ≤ 10 by omega))
  unfold hexTmp hexText
  by_cases hwidth : width = 0
  · rw [if_pos hwidth, if_pos hwidth, hexEight_eq]
    rfl
  · rw [if_neg hwidth, if_neg hwidth, hexLoop_eq, Numeral.text, reverse_reverse]
    rfl

end Numbers

def convText (args : Args) (k : Nat) (conv : Conversion) : List UInt8 :=
  match specifier conv.spec with
  | .dec sign => padded conv.width conv.zero (decText (args.word k) sign)
  | .hex upper => padded conv.width conv.zero (hexText (args.word k) upper conv.width)
  | .pointer => ['0'.toUInt8, 'x'.toUInt8] ++ padded 8 true (hexText (args.word k) false 8)
  | .string => if args.word k = 0 then nullText else (args.string (args.word k)).chars
  | .char => [(args.word k).toUInt8]
  | .percent => ['%'.toUInt8]
  | .other => ['%'.toUInt8, conv.spec]

def Conversion.takes (conv : Conversion) : Nat :=
  match specifier conv.spec with
  | .percent => 0
  | .other => 0
  | _ => 1

def Conversion.Fits (conv : Conversion) : Prop :=
  match specifier conv.spec with
  | .dec _ => conv.width.toInt ≤ 12
  | .hex _ => conv.width.toInt ≤ 10
  | _ => True

section Conversions

variable {size k : Nat} {args : Args} {conv : Conversion} {out : List UInt8}

theorem printDec_ok {val : UInt32} {sign zero : Bool} {width : Int32} (h : width.toInt ≤ 12) :
    printDec size out val sign width zero = .ok (stored size (padded width zero (decText val sign)) out) := by
  rw [printDec, decTmp_eq, if_pos h]
  refine (emit_eq size _ out).trans ?_
  rw [reverse_reverse]

theorem printHex_ok {val : UInt32} {upper zero : Bool} {width : Int32} (h : width.toInt ≤ 10) :
    printHex size out val upper width zero =
      .ok (stored size (padded width zero (hexText val upper width)) out) := by
  rw [printHex, hexTmp_eq, if_pos h]
  refine (emit_eq size _ out).trans ?_
  rw [reverse_reverse]

theorem convert_ok (hroom : out.length < size - 1) (hfits : conv.Fits) :
    convert size args k conv out = .ok (stored size (convText args k conv) out, k + conv.takes) := by
  unfold convert convText Conversion.takes
  unfold Conversion.Fits at hfits
  cases hspec : specifier conv.spec with
  | dec sign =>
    rw [hspec] at hfits
    dsimp only
    rw [printDec_ok hfits]
    rfl
  | hex upper =>
    rw [hspec] at hfits
    dsimp only
    rw [printHex_ok hfits]
    rfl
  | pointer =>
    dsimp only
    rw [emit_eq]
    dsimp only [bind, Except.bind]
    rw [emit_eq]
    dsimp only
    rw [printHex_ok (show (8 : Int32).toInt ≤ 10 by decide), stored_append, stored_append]
    rfl
  | string =>
    dsimp only
    rw [emit_eq]
    rfl
  | char =>
    dsimp only
    rw [if_pos hroom, store_ok hroom]
    rfl
  | percent =>
    dsimp only
    rw [emit_eq]
    rfl
  | other =>
    dsimp only
    rw [emit_eq]
    dsimp only [bind, Except.bind]
    rw [emit_eq, stored_append]
    rfl

theorem convert_error (hfits : ¬ conv.Fits) : convert size args k conv out = .error .scratch := by
  unfold convert
  unfold Conversion.Fits at hfits
  cases hspec : specifier conv.spec with
  | dec sign =>
    rw [hspec] at hfits
    dsimp only
    rw [printDec, decTmp_eq, if_neg hfits]
    rfl
  | hex upper =>
    rw [hspec] at hfits
    dsimp only
    rw [printHex, hexTmp_eq, if_neg hfits]
    rfl
  | _ =>
    rw [hspec] at hfits
    exact absurd trivial hfits

end Conversions

inductive Piece where
  | char (c : UInt8)
  | conversion (conv : Conversion)
deriving DecidableEq

def pieces : (fuel : Nat) → List UInt8 → List Piece
  | 0, _ => []
  | _ + 1, [] => []
  | fuel + 1, c :: fmt =>
    if c ≠ '%'.toUInt8 then .char c :: pieces fuel fmt
    else .conversion (parseConversion fmt).1 :: pieces fuel (parseConversion fmt).2.tail

def CString.pieces (fmt : CString) : List Piece := Vsnprintf.pieces fmt.chars.length fmt.chars

/-- The text of a format for an unlimited size, from argument `k` on. -/
def rendered (args : Args) : List Piece → (k : Nat) → List UInt8
  | [], _ => []
  | .char c :: ps, k => c :: rendered args ps k
  | .conversion conv :: ps, k => convText args k conv ++ rendered args ps (k + conv.takes)

/-- Every conversion in front of which there are fewer than `limit` characters has a specifier and fits its array.
-/
def Safe (limit : Nat) (args : Args) : List Piece → (k n : Nat) → Prop
  | [], _, _ => True
  | .char _ :: ps, k, n => n < limit → Safe limit args ps k (n + 1)
  | .conversion conv :: ps, k, n => n < limit →
      conv.spec ≠ 0 ∧ conv.Fits ∧
        Safe limit args ps (k + conv.takes) (n + (convText args k conv).length)

section Formats

variable {size : Nat} {args : Args} {fmt : List UInt8}

theorem parseFlags_suffix (left zero : Bool) (fmt : List UInt8) : (parseFlags left zero fmt).2.2 <:+ fmt := by
  induction fmt generalizing left zero with
  | nil => exact suffix_refl []
  | cons c fmt ih =>
    rw [parseFlags]
    split
    · exact (ih true zero).trans (suffix_cons c fmt)
    · split
      · exact (ih left true).trans (suffix_cons c fmt)
      · exact suffix_refl _

theorem parseWidth_suffix (width : Int32) (fmt : List UInt8) : (parseWidth width fmt).2 <:+ fmt := by
  induction fmt generalizing width with
  | nil => exact suffix_refl []
  | cons c fmt ih =>
    rw [parseWidth]
    split
    · exact (ih _).trans (suffix_cons c fmt)
    · exact suffix_refl _

theorem parseConversion_suffix (fmt : List UInt8) : (parseConversion fmt).2 <:+ fmt := by
  have hflags := parseFlags_suffix false false fmt
  have hwidth := parseWidth_suffix 0 (parseFlags false false fmt).2.2
  unfold parseConversion
  dsimp only
  split
  · exact (tail_suffix _).trans (hwidth.trans hflags)
  · exact hwidth.trans hflags

theorem parseConversion_spec (fmt : List UInt8) :
    (parseConversion fmt).1.spec = (parseConversion fmt).2.headD 0 := rfl

theorem safe_of_full {limit k n : Nat} (h : limit ≤ n) (ps : List Piece) : Safe limit args ps k n := by
  cases ps with
  | nil => trivial
  | cons piece ps =>
    cases piece with
    | char c => exact fun hn => absurd hn (not_lt.mpr h)
    | conversion conv => exact fun hn => absurd hn (not_lt.mpr h)

theorem safe_stored {text out : List UInt8} {ps : List Piece} {k : Nat} (hout : out.length ≤ size - 1) :
    Safe (size - 1) args ps k (stored size text out).length ↔
    Safe (size - 1) args ps k (out.length + text.length) := by
  by_cases hfull : out.length + text.length ≤ size - 1
  · rw [length_stored size text out hout, Nat.min_eq_right hfull]
  · have hlength := length_stored size text out hout
    exact iff_of_true (safe_of_full (by omega) _) (safe_of_full (by omega) _)

theorem formatLoop_ok {fuel n k : Nat} {out : List UInt8} (hfuel : fmt.length < fuel)
    (hn : fmt.length ≤ n) (hout : out.length ≤ size - 1)
    (hsafe : Safe (size - 1) args (pieces n fmt) k out.length) :
    formatLoop size args fuel (some fmt) k out = .ok (stored size (rendered args (pieces n fmt) k) out) := by
  induction fuel generalizing fmt n k out with
  | zero => omega
  | succ fuel ih =>
    cases fmt with
    | nil =>
      have hnil : pieces n [] = [] := by cases n <;> rfl
      rw [hnil, rendered, stored, take_nil, append_nil]
      rfl
    | cons c fmt =>
      rw [length_cons] at hfuel hn
      obtain ⟨n, rfl⟩ := Nat.exists_eq_succ_of_ne_zero (show n ≠ 0 by omega)
      rw [formatLoop]
      by_cases hroom : out.length < size - 1
      · rw [if_pos hroom]
        rw [pieces] at hsafe ⊢
        by_cases hc : c ≠ '%'.toUInt8
        · rw [if_pos hc] at hsafe ⊢
          rw [if_pos hc, store_ok hroom, rendered]
          have hlength := length_stored size [c] out hout
          exact (ih (by omega) (by omega) (by omega) ((safe_stored hout).mpr (hsafe hroom))).trans
            (congrArg Except.ok (stored_append size [c] _ out))
        · rw [if_neg hc] at hsafe ⊢
          obtain ⟨hspec, hfits, hrest⟩ := hsafe hroom
          have hsuffix := (parseConversion_suffix fmt).length_le
          rw [parseConversion_spec] at hspec
          rw [if_neg hc, rendered]
          generalize hparsed : parseConversion fmt = parsed at *
          obtain ⟨conv, left⟩ := parsed
          dsimp only at hspec hfits hrest hsuffix ⊢
          rw [convert_ok hroom hfits]
          cases left with
          | nil => exact absurd rfl hspec
          | cons spec left =>
            have hlength := length_stored size (convText args k conv) out hout
            rw [length_cons] at hsuffix
            rw [tail_cons] at hrest
            exact (ih (by omega) (by omega) (by omega) ((safe_stored hout).mpr hrest)).trans
              (congrArg Except.ok (stored_append size _ _ out))
      · rw [if_neg hroom, stored_of_full (Nat.le_of_not_lt hroom)]

theorem formatLoop_error {fuel n k : Nat} {out : List UInt8} (hfuel : fmt.length < fuel)
    (hnonzero : ∀ c ∈ fmt, c ≠ 0) (hn : fmt.length ≤ n) (hout : out.length ≤ size - 1)
    (hsafe : ¬ Safe (size - 1) args (pieces n fmt) k out.length) :
    formatLoop size args fuel (some fmt) k out = .error .format ∨
      formatLoop size args fuel (some fmt) k out = .error .scratch := by
  induction fuel generalizing fmt n k out with
  | zero => omega
  | succ fuel ih =>
    cases fmt with
    | nil =>
      have hnil : pieces n [] = [] := by cases n <;> rfl
      rw [hnil] at hsafe
      exact absurd trivial hsafe
    | cons c fmt =>
      rw [length_cons] at hfuel hn
      obtain ⟨n, rfl⟩ := Nat.exists_eq_succ_of_ne_zero (show n ≠ 0 by omega)
      have hroom : out.length < size - 1 := by
        by_contra hfull
        exact hsafe (safe_of_full (Nat.le_of_not_lt hfull) _)
      rw [formatLoop, if_pos hroom]
      rw [pieces] at hsafe
      by_cases hc : c ≠ '%'.toUInt8
      · rw [if_pos hc] at hsafe
        rw [if_pos hc, store_ok hroom]
        have hlength := length_stored size [c] out hout
        exact ih (by omega) (fun d hd => hnonzero d (mem_cons_of_mem c hd)) (by omega) (by omega)
          fun h => hsafe fun _ => (safe_stored hout).mp h
      · rw [if_neg hc] at hsafe
        have hsuffix := parseConversion_suffix fmt
        have hspec := parseConversion_spec fmt
        rw [if_neg hc]
        generalize parseConversion fmt = parsed at *
        obtain ⟨conv, left⟩ := parsed
        dsimp only at hsafe hsuffix hspec ⊢
        by_cases hfits : conv.Fits
        · rw [convert_ok hroom hfits]
          cases left with
          | nil =>
            refine .inl ?_
            cases fuel <;> rfl
          | cons spec left =>
            have hlength := length_stored size (convText args k conv) out hout
            have hle := hsuffix.length_le
            have hmem : ∀ d ∈ spec :: left, d ≠ 0 := fun d hd =>
              hnonzero d (mem_cons_of_mem c (hsuffix.mem hd))
            rw [length_cons] at hle
            have hrest : ¬ Safe (size - 1) args (pieces n left) (k + conv.takes)
                (out.length + (convText args k conv).length) := fun h =>
              hsafe fun _ => ⟨hspec ▸ hmem spec mem_cons_self, hfits, h⟩
            have hout' : (stored size (convText args k conv) out).length ≤ size - 1 := by omega
            exact ih (by omega) (fun d (hd : d ∈ left) => hmem d (mem_cons_of_mem spec hd)) (by omega)
              hout' (mt (safe_stored hout).mp hrest)
        · rw [convert_error hfits]
          exact .inr rfl

end Formats

section Runs

variable {size : Nat} {args : Args} {fmt : CString}

def CString.Safe (fmt : CString) (size : Nat) (args : Args) : Prop :=
  Vsnprintf.Safe (size - 1) args fmt.pieces 0 0

def CString.text (fmt : CString) (args : Args) : List UInt8 := rendered args fmt.pieces 0

theorem vsnprintf_ok (n : Nat) (hsafe : fmt.Safe (n + 1) args) : vsnprintf (n + 1) fmt args =
      .ok ((fmt.text args).take n ++ [0], Int32.ofNat ((fmt.text args).take n).length) := by
  have hloop : formatLoop (n + 1) args (fmt.chars.length + 1) (some fmt.chars) 0 [] =
      .ok (stored (n + 1) (fmt.text args) []) :=
    formatLoop_ok (Nat.lt_succ_self _) le_rfl (Nat.zero_le _) hsafe
  have hstore : store (n + 1) (stored (n + 1) (fmt.text args) []) 0 =
      .ok (stored (n + 1) (fmt.text args) [] ++ [0]) := by
    refine if_pos ?_
    rw [length_stored _ _ _ (Nat.zero_le _)]
    omega
  unfold vsnprintf
  rw [hloop]
  exact congrArg (· >>= fun buf => Except.ok (buf, Int32.ofNat ((fmt.text args).take n).length)) hstore

theorem vsnprintf_error (n : Nat) (hsafe : ¬ fmt.Safe (n + 1) args) :
    vsnprintf (n + 1) fmt args = .error .format ∨ vsnprintf (n + 1) fmt args = .error .scratch := by
  have hloop : formatLoop (n + 1) args (fmt.chars.length + 1) (some fmt.chars) 0 [] = .error .format ∨
      formatLoop (n + 1) args (fmt.chars.length + 1) (some fmt.chars) 0 [] = .error .scratch :=
    formatLoop_error (Nat.lt_succ_self _) fmt.nonzero le_rfl (Nat.zero_le _) hsafe
  unfold vsnprintf
  rcases hloop with h | h
  · rw [h]
    exact .inl rfl
  · rw [h]
    exact .inr rfl

/-- The buffer is written only inside its bounds, and the other arrays exactly where the format is safe. -/
theorem vsnprintf_inside_iff (n : Nat) (fmt : CString)
    (args : Args) : vsnprintf (n + 1) fmt args ≠ .error .buffer ∧
      ((∃ result, vsnprintf (n + 1) fmt args = .ok result) ↔ fmt.Safe (n + 1) args) := by
  by_cases hsafe : fmt.Safe (n + 1) args
  · rw [vsnprintf_ok n hsafe]
    refine ⟨?_, fun _ => hsafe, fun _ => ⟨_, rfl⟩⟩
    intro h
    cases h
  · have hnone : ∀ fault, vsnprintf (n + 1) fmt args = .error fault →
        ((∃ result, vsnprintf (n + 1) fmt args = .ok result) ↔ fmt.Safe (n + 1) args) := by
      intro fault hfault
      refine ⟨?_, fun h => absurd h hsafe⟩
      rintro ⟨result, hresult⟩
      cases hfault.symm.trans hresult
    rcases vsnprintf_error n hsafe with h | h
    · refine ⟨?_, hnone _ h⟩
      rw [h]
      decide
    · refine ⟨?_, hnone _ h⟩
      rw [h]
      decide

theorem not_inside_percent : vsnprintf 2 { chars := ['%'.toUInt8], nonzero := all_iff_forall_prop.mp rfl }
        { word := fun _ => 5, string := fun _ => { chars := [], nonzero := forall_mem_nil _ } } =
        .error .format ∧
      vsnprintf 16 { chars := ['%', '1', '3', 'd'].map Char.toUInt8, nonzero := all_iff_forall_prop.mp rfl }
        { word := fun _ => 5, string := fun _ => { chars := [], nonzero := forall_mem_nil _ } } =
        .error .scratch := by
  refine ⟨rfl, ?_⟩
  generalize ({ word := fun _ => 5, string := fun _ => { chars := [], nonzero := forall_mem_nil _ } } : Args) = args
  have hwide : ¬ Conversion.Fits { zero := false, width := 13, spec := 'd'.toUInt8 } := by
    have hwidth : ¬ (13 : Int32).toInt ≤ 12 := by decide
    exact hwidth
  have hconvert : convert 16 args 0 { zero := false, width := 13, spec := 'd'.toUInt8 } [] =
      .error .scratch := convert_error hwide
  have hparse : parseConversion (['1', '3', 'd'].map Char.toUInt8) =
      ({ zero := false, width := 13, spec := 'd'.toUInt8 }, ['d'.toUInt8]) := by decide
  have hloop : formatLoop 16 args 5 (some (['%', '1', '3', 'd'].map Char.toUInt8)) 0 [] =
      (convert 16 args 0 (parseConversion (['1', '3', 'd'].map Char.toUInt8)).1 [] >>= fun r =>
        formatLoop 16 args 4 (advance (parseConversion (['1', '3', 'd'].map Char.toUInt8)).2) r.2 r.1) := rfl
  rw [hparse, hconvert] at hloop
  unfold vsnprintf
  exact congrArg (· >>= _) hloop

theorem safe_of_narrow {limit k n : Nat} {ps : List Piece}
    (h : ∀ conv, .conversion conv ∈ ps → conv.spec ≠ 0 ∧ conv.width.toInt ≤ 10) :
    Vsnprintf.Safe limit args ps k n := by
  induction ps generalizing k n with
  | nil => trivial
  | cons piece ps ih =>
    have hrest := fun conv hmem => h conv (mem_cons_of_mem piece hmem)
    cases piece with
    | char c => exact fun _ => ih hrest
    | conversion conv =>
      obtain ⟨hspec, hwidth⟩ := h conv mem_cons_self
      refine fun _ => ⟨hspec, ?_, ih hrest⟩
      unfold Conversion.Fits
      cases specifier conv.spec with
      | dec sign => exact hwidth.trans (by decide)
      | hex upper => exact hwidth
      | _ => trivial

/-- A buffer of `n + 1` bytes gets the first `n` characters of the text for an unlimited size, and a NUL. -/
theorem vsnprintf_prefix (fmt : CString)
    (h : ∀ conv, .conversion conv ∈ fmt.pieces → conv.spec ≠ 0 ∧ conv.width.toInt ≤ 10) (args : Args) :
    ∃ text : List UInt8, ∀ n : Nat,
      vsnprintf (n + 1) fmt args = .ok (text.take n ++ [0], Int32.ofNat (text.take n).length) ∧
        (n < 2 ^ 31 → (Int32.ofNat (text.take n).length).toInt = (text.take n).length) := by
  refine ⟨fmt.text args, fun n => ⟨vsnprintf_ok n (safe_of_narrow h), fun hn => ?_⟩⟩
  have hlength : ((fmt.text args).take n).length ≤ n := length_take_le n _
  exact Int32.toInt_ofNat_of_lt (by omega)

theorem vsnprintf_prefix_dec : ∃ text : List UInt8, ∀ n : Nat,
    vsnprintf (n + 1) { chars := ['%', 'd'].map Char.toUInt8, nonzero := all_iff_forall_prop.mp rfl }
        { word := fun _ => 12345, string := fun _ => { chars := [], nonzero := forall_mem_nil _ } } =
      .ok (text.take n ++ [0], Int32.ofNat (text.take n).length) ∧
        (n < 2 ^ 31 → (Int32.ofNat (text.take n).length).toInt = (text.take n).length) := by
  refine vsnprintf_prefix _ ?_ _
  intro conv hmem
  obtain rfl := Piece.conversion.inj (mem_singleton.mp hmem)
  decide

end Runs

end JexOs.Vsnprintf
