import JexOs.TccScan
import Mathlib.Data.List.TakeWhile

/-!
# What the lexer reads

The lexer stays in front of the terminator, and goes wrong in two places: a number that just passes the test in
front of its last multiplication, and an array that is full before the end of the source is noted in it.
-/

namespace JexOs.Tcc

open X86 (Byte)
open List Option

section Positions

variable {source : CString} {pos : Nat}

theorem charAt_eq (hpos : pos ≤ source.length) : charAt source pos = .ok (peek (source.drop pos)) := by
  unfold charAt
  rcases Nat.lt_or_eq_of_le hpos with hlt | rfl
  · rw [getElem?_append_left hlt, getElem?_eq_getElem hlt, drop_eq_getElem_cons hlt]
    rfl
  · rw [getElem?_append_right le_rfl, Nat.sub_self, drop_length]
    rfl

theorem lt_of_peek (hpos : pos ≤ source.length) (h : peek (source.drop pos) ≠ 0) : pos < source.length := by
  rcases Nat.lt_or_eq_of_le hpos with hlt | rfl
  · exact hlt
  · rw [drop_length] at h
    exact absurd rfl h

theorem drop_eq_peek_cons (hpos : pos < source.length) :
    source.drop pos = peek (source.drop pos) :: source.drop (pos + 1) := by
  rw [drop_eq_getElem_cons hpos]
  rfl

theorem charAt_next (hpos : pos < source.length) :
    charAt source (pos + 1) = .ok (peek ((source.drop pos).drop 1)) := by
  rw [charAt_eq hpos, drop_drop]

theorem takeWhileAt_eq {p : Byte → Bool} (hzero : p 0 = false) {fuel : Nat} (hpos : pos ≤ source.length)
    (hfuel : source.length - pos < fuel) : takeWhileAt source p fuel pos =
      .ok ((source.drop pos).takeWhile p, pos + ((source.drop pos).takeWhile p).length) := by
  induction fuel generalizing pos with
  | zero => exact absurd hfuel (Nat.not_lt_zero _)
  | succ fuel ih =>
    rw [takeWhileAt, charAt_eq hpos]
    change (if p (peek (source.drop pos)) then _ else _) = _
    by_cases hp : p (peek (source.drop pos)) = true
    · have hne : peek (source.drop pos) ≠ 0 := by
        intro h
        rw [h, hzero] at hp
        cases hp
      have hlt := lt_of_peek hpos hne
      have hmore : (source.drop pos).takeWhile p =
          peek (source.drop pos) :: (source.drop (pos + 1)).takeWhile p := by
        conv_lhs => rw [drop_eq_peek_cons hlt]
        exact takeWhile_cons_of_pos hp
      have hplace : pos + ((source.drop (pos + 1)).takeWhile p).length.succ =
          pos + 1 + ((source.drop (pos + 1)).takeWhile p).length := by omega
      rw [if_pos hp, ih hlt (by omega), hmore, length_cons, hplace]
      rfl
    · rw [if_neg hp]
      rcases Nat.lt_or_eq_of_le hpos with hlt | rfl
      · rw [drop_eq_peek_cons hlt, takeWhile_cons_of_neg hp]
        rfl
      · rw [drop_length]
        rfl

theorem drop_takeWhile (s : CString) (p : Byte → Bool) : s.drop (s.takeWhile p).length = s.dropWhile p := by
  conv_lhs => rw [← @takeWhile_append_dropWhile _ p s]
  rw [takeWhile_append_dropWhile]
  conv_lhs =>
    arg 2
    rw [← @takeWhile_append_dropWhile _ p s]
  exact drop_left

theorem drop_pos_takeWhile (p : Byte → Bool) (hpos : pos ≤ source.length) :
    source.drop (pos + ((source.drop pos).takeWhile p).length) = (source.drop pos).dropWhile p ∧
      pos + ((source.drop pos).takeWhile p).length ≤ source.length := by
  constructor
  · rw [← drop_drop, drop_takeWhile]
  · have hle := ( takeWhile_prefix p (l := source.drop pos)).length_le
    rw [length_drop] at hle
    omega

theorem takeWhile_peek {p : Byte → Bool} (hpos : pos < source.length)
    (hp : p (peek (source.drop pos)) = true) :
    0 < ((source.drop pos).takeWhile p).length := by
  rw [drop_eq_peek_cons hpos, takeWhile_cons_of_pos hp]
  exact Nat.succ_pos _

theorem skipBlockComment_drop (hpos : pos < source.length) : skipBlockComment (source.drop pos) =
    if peek (source.drop pos) = 0 then source.drop pos
    else if peek (source.drop pos) = ch '*' ∧ peek (source.drop (pos + 1)) = ch '/' then source.drop (pos + 2)
    else skipBlockComment (source.drop (pos + 1)) := by
  conv_lhs => rw [drop_eq_peek_cons hpos, skipBlockComment, ← drop_eq_peek_cons hpos, drop_drop]

theorem skipBlockCommentAt_eq {fuel : Nat} (hpos : pos ≤ source.length)
    (hfuel : source.length - pos < fuel) : ∃ next, skipBlockCommentAt source fuel pos = .ok next ∧
      source.drop next = skipBlockComment (source.drop pos) ∧ pos ≤ next ∧ next ≤ source.length := by
  induction fuel generalizing pos with
  | zero => exact absurd hfuel (Nat.not_lt_zero _)
  | succ fuel ih =>
    rw [skipBlockCommentAt, charAt_eq hpos]
    change ∃ next, (if peek (source.drop pos) = 0 then _ else _) = _ ∧ _
    by_cases hzero : peek (source.drop pos) = 0
    · refine ⟨pos, if_pos hzero, ?_, le_rfl, hpos⟩
      rcases Nat.lt_or_eq_of_le hpos with hlt | rfl
      · rw [skipBlockComment_drop hlt, if_pos hzero]
      · rw [drop_length]
        rfl
    · have hlt := lt_of_peek hpos hzero
      obtain ⟨next, hnext, hdrop, hle, hend⟩ := @ih (pos + 1) hlt (by omega)
      rw [if_neg hzero, skipBlockComment_drop hlt, if_neg hzero]
      by_cases hstar : peek (source.drop pos) = ch '*'
      · rw [if_pos hstar, charAt_eq hlt]
        change ∃ next, (if peek (source.drop (pos + 1)) = ch '/' then _ else _) = _ ∧ _
        by_cases hslash : peek (source.drop (pos + 1)) = ch '/'
        · have hlt' := lt_of_peek hlt (by rw [hslash]; decide)
          rw [if_pos hslash, if_pos ⟨hstar, hslash⟩]
          exact ⟨pos + 2, rfl, rfl, by omega, hlt'⟩
        · rw [if_neg hslash, if_neg fun h => hslash h.2]
          exact ⟨next, hnext, hdrop, by omega, hend⟩
      · rw [if_neg hstar, if_neg fun h => hstar h.1]
        exact ⟨next, hnext, hdrop, by omega, hend⟩

theorem scanCharsAt_eq (room : Nat) (hpos : pos ≤ source.length) : ∃ next,
    scanCharsAt source room pos = .ok ((scanChars room (source.drop pos)).1, next) ∧
      source.drop next = (scanChars room (source.drop pos)).2 ∧ pos ≤ next ∧ next ≤ source.length := by
  induction room generalizing pos with
  | zero =>
    refine ⟨pos, ?_, rfl, le_rfl, hpos⟩
    rw [scanCharsAt, charAt_eq hpos]
    rfl
  | succ room ih =>
    rw [scanCharsAt, charAt_eq hpos, scanChars]
    change ∃ next, (if peek (source.drop pos) = ch '"' ∨ peek (source.drop pos) = 0 then _ else _) = _ ∧ _
    by_cases hend : peek (source.drop pos) = ch '"' ∨ peek (source.drop pos) = 0
    · rw [if_pos hend, if_pos hend]
      exact ⟨pos, rfl, rfl, le_rfl, hpos⟩
    · have hlt := lt_of_peek hpos fun h => hend (.inr h)
      obtain ⟨next, hnext, hdrop, hle, hstop⟩ := @ih (pos + 1) hlt
      have hplain : ∃ next', (do
          let r ← scanCharsAt source room (pos + 1)
          pure (peek (source.drop pos) :: r.1, r.2) : Except Fault (CString × Nat)) =
            .ok (peek (source.drop pos) :: (scanChars room ((source.drop pos).drop 1)).1, next') ∧
          source.drop next' = (scanChars room ((source.drop pos).drop 1)).2 ∧ pos ≤ next' ∧
          next' ≤ source.length := by
        rw [hnext, drop_drop]
        exact ⟨next, rfl, hdrop, by omega, hstop⟩
      rw [if_neg hend, if_neg hend]
      by_cases hback : peek (source.drop pos) = ch '\\'
      · rw [if_pos hback, charAt_next hlt]
        change ∃ next, (if peek ((source.drop pos).drop 1) ≠ 0 then _ else _) = _ ∧ _
        by_cases hzero : peek ((source.drop pos).drop 1) ≠ 0
        · have hlt' : pos + 1 < source.length := by
            rw [drop_drop] at hzero
            exact lt_of_peek hlt hzero
          obtain ⟨next', hnext', hdrop', hle', hstop'⟩ := @ih (pos + 2) hlt'
          rw [if_pos hzero, if_pos ⟨hback, hzero⟩, hnext', @drop_drop _ 2 pos]
          exact ⟨next', rfl, hdrop', by omega, hstop'⟩
        · rw [if_neg hzero, if_neg fun h => hzero h.2]
          exact hplain
      · rw [if_neg hback, if_neg fun h => hback h.1]
        exact hplain

end Positions

def digitsValue (val : Nat) (digits : CString) : Nat :=
  digits.foldl (fun v c => v * 10 + (c.toNat - 48)) val

/-- Digits with the value `INT_MAX / 10`, and behind them an 8 or a 9. -/
def OverflowsFrom (val : Nat) (s : CString) : Prop :=
  ∃ digits d, digits ++ [d] <+: s ∧ (∀ c ∈ digits, isDigit c = true) ∧
    digitsValue val digits = 214748364 ∧ (d = ch '8' ∨ d = ch '9')

/-- A number starts here that passes the test in front of its last multiplication, but does not fit. -/
def Overflows (s : CString) : Prop := OverflowsFrom 0 s

section Numbers

variable {source : CString} {pos val : Nat} {c : Byte} {s : CString}

theorem le_digitsValue (val : Nat) (digits : CString) : val ≤ digitsValue val digits := by
  induction digits generalizing val with
  | nil => exact le_rfl
  | cons c digits ih =>
    have hnext := ih (val * 10 + (c.toNat - 48))
    change val ≤ digitsValue (val * 10 + (c.toNat - 48)) digits
    omega

theorem not_overflowsFrom_nil : ¬ OverflowsFrom val [] := by
  rintro ⟨digits, d, hleading, -⟩
  have hle := hleading.length_le
  rw [length_append, length_singleton, length_nil] at hle
  omega

theorem overflowsFrom_cons : OverflowsFrom val (c :: s) ↔ val = 214748364 ∧ (c = ch '8' ∨ c = ch '9') ∨
      isDigit c = true ∧ OverflowsFrom (val * 10 + (c.toNat - 48)) s := by
  constructor
  · rintro ⟨digits, d, hleading, hdigits, hvalue, hd⟩
    cases digits with
    | nil =>
      obtain rfl : d = c := (cons_prefix_cons.mp hleading).1
      exact .inl ⟨hvalue, hd⟩
    | cons first digits =>
      obtain ⟨rfl, hrest⟩ := cons_prefix_cons.mp hleading
      exact .inr ⟨hdigits first mem_cons_self, digits, d, hrest,
        fun c hc => hdigits c (mem_cons_of_mem _ hc), hvalue, hd⟩
  · rintro (⟨hval, hc⟩ | ⟨hdigit, digits, d, hleading, hdigits, hvalue, hd⟩)
    · exact ⟨[], c, cons_prefix_cons.mpr ⟨rfl, nil_prefix⟩, fun c hc => absurd hc not_mem_nil, hval, hc⟩
    · exact ⟨c :: digits, d, cons_prefix_cons.mpr ⟨rfl, hleading⟩,
        forall_mem_cons.mpr ⟨hdigit, hdigits⟩, hvalue, hd⟩

theorem not_overflowsFrom_of_lt (h : 214748364 < val) : ¬ OverflowsFrom val s := by
  rintro ⟨digits, d, -, -, hvalue, -⟩
  have hle := le_digitsValue val digits
  omega

theorem Overflows.isDigit (h : Overflows s) : Tcc.isDigit (peek s) = true := by
  cases s with
  | nil => exact absurd h not_overflowsFrom_nil
  | cons c s =>
    rcases overflowsFrom_cons.mp h with ⟨hval, -⟩ | ⟨hdigit, -⟩
    · exact absurd hval (by decide)
    · exact hdigit

theorem isDigit_toNat (h : isDigit c = true) : 48 ≤ c.toNat ∧ c.toNat ≤ 57 ∧ c ≠ 0 ∧
    (56 ≤ c.toNat ↔ c = ch '8' ∨ c = ch '9') := by
  have hall : ∀ c : Byte, isDigit c = true → 48 ≤ c.toNat ∧ c.toNat ≤ 57 ∧ c ≠ 0 ∧
      (56 ≤ c.toNat ↔ c = ch '8' ∨ c = ch '9') := by decide
  exact hall c h

theorem scanDigitsAt_eq {fuel : Nat} (hpos : pos ≤ source.length) (hfuel : source.length - pos < fuel)
    (hval : val ≤ intMax) :
    (OverflowsFrom val (source.drop pos) ∧ scanDigitsAt source fuel val pos = .error .overflow) ∨
      (¬ OverflowsFrom val (source.drop pos) ∧ ∃ v next, scanDigitsAt source fuel val pos = .ok (v, next) ∧
        scanDigits val (source.drop pos) = ((v : Int), source.drop next) ∧ pos ≤ next ∧
        next ≤ source.length) := by
  induction fuel generalizing pos val with
  | zero => exact absurd hfuel (Nat.not_lt_zero _)
  | succ fuel ih =>
    rw [scanDigitsAt, charAt_eq hpos]
    change _ ∧ (if isDigit (peek (source.drop pos)) then _ else _) = _ ∨ _ ∧ ∃ v next,
      (if isDigit (peek (source.drop pos)) then _ else _) = _ ∧ _
    rcases Nat.lt_or_eq_of_le hpos with hlt | rfl
    · have hdrop := drop_eq_peek_cons hlt
      generalize peek (source.drop pos) = c at hdrop ⊢
      rw [hdrop, overflowsFrom_cons, scanDigits]
      by_cases hdigit : isDigit c = true
      · obtain ⟨hlow, hhigh, -, hlast⟩ := isDigit_toNat hdigit
        rw [if_pos hdigit, if_pos hdigit]
        by_cases hbig : val > 214748364
        · rw [if_pos hbig, if_pos (by omega)]
          refine .inr ⟨?_, val, pos, rfl, by rw [hdrop], le_rfl, hpos⟩
          rintro (⟨heq, -⟩ | ⟨-, hmore⟩)
          · omega
          · exact not_overflowsFrom_of_lt (by omega) hmore
        · rw [if_neg hbig, if_neg (show ¬ (val : Int) > 214748364 by omega)]
          by_cases hover : val * 10 + (c.toNat - 48) > intMax
          · rw [if_pos hover]
            unfold intMax at hover
            exact .inl ⟨.inl ⟨by omega, hlast.mp (by omega)⟩, rfl⟩
          · have hfits : val * 10 + (c.toNat - 48) ≤ intMax := Nat.le_of_not_lt hover
            have hnot : ¬ (val = 214748364 ∧ (c = ch '8' ∨ c = ch '9')) := by
              rintro ⟨heq, hc⟩
              have hnine := hlast.mpr hc
              unfold intMax at hfits
              omega
            have hwrap : ((val : Int) * 10 + ((c.toNat : Int) - 48)).bmod (2 ^ 32) =
                ((val * 10 + (c.toNat - 48) : Nat) : Int) := by
              unfold intMax at hfits
              rw [Int.bmod_def]
              omega
            rw [if_neg hover, hwrap]
            rcases ih hlt (by omega) hfits with ⟨hmore, herror⟩ | ⟨hmore, v, next, hok, hlist, hle, hend⟩
            · exact .inl ⟨.inr ⟨hdigit, hmore⟩, herror⟩
            · refine .inr ⟨?_, v, next, hok, hlist, by omega, hend⟩
              rintro (h | ⟨-, h⟩)
              · exact hnot h
              · exact hmore h
      · rw [if_neg hdigit, if_neg hdigit]
        refine .inr ⟨?_, val, pos, rfl, by rw [hdrop], le_rfl, hpos⟩
        rintro (⟨-, rfl | rfl⟩ | ⟨h, -⟩)
        · exact hdigit (by decide)
        · exact hdigit (by decide)
        · exact hdigit h
    · rw [drop_length]
      exact .inr ⟨not_overflowsFrom_nil, val, source.length, rfl, by rw [drop_length]; rfl, le_rfl, hpos⟩

end Numbers

section Tokens

variable {source : CString} {pos fuel : Nat} {tok : Token}

theorem operatorCases_facts : ∀ k ∈ operatorCases, isDigit k.first = false ∧ k.scan 0 = (k.alone, 1) ∧
    (k.pairs = [] → k.first ≠ ch '/') := by
  decide

theorem slash_mem : ∃ k ∈ operatorCases, k.first = ch '/' := by
  decide

theorem OperatorCase.scan_pos (k : OperatorCase) (d : Byte) : 0 < (k.scan d).2 ∧ (k.scan d).2 ≤ 2 := by
  unfold OperatorCase.scan
  split <;> simp

theorem OperatorCase.scan_alone {k : OperatorCase} (h : k.pairs = [])
    (d : Byte) : k.scan d = (k.alone, 1) := by
  unfold OperatorCase.scan
  rw [h]
  rfl

def TurnAgrees (source : CString) (fuel pos : Nat) (tok : Token) : Prop :=
  ∃ next, scanTokenAt source fuel pos tok = .ok ((scanToken (source.drop pos) tok).1, next) ∧
    source.drop next = (scanToken (source.drop pos) tok).2 ∧ pos < next ∧ next ≤ source.length

section

variable (hpos : pos < source.length)

include hpos

theorem turns_operator (hfuel : source.length < fuel) {k : OperatorCase}
    (hfind : operatorCases.find? (fun k => k.first = peek (source.drop pos)) = some k) :
    TurnAgrees source fuel pos tok := by
  have hmem := mem_of_find?_eq_some hfind
  have hfirst : k.first = peek (source.drop pos) := by simpa using find?_some hfind
  obtain ⟨-, hzero, hslash⟩ := operatorCases_facts k hmem
  have hscan : ∀ d, scanOperator (peek (source.drop pos)) d = some (k.scan d) := by
    intro d
    rw [scanOperator, hfind]
    rfl
  have hat : scanTokenAt source fuel pos tok =
      if k.pairs = [] then .ok (some { tok with type := k.alone }, pos + 1)
      else if peek (source.drop pos) = ch '/' ∧ peek (source.drop (pos + 1)) = ch '/' then (do
        let r ← takeWhileAt source (fun c => c ≠ 0 ∧ c ≠ ch '\n') fuel pos
        pure (none, r.2))
      else if peek (source.drop pos) = ch '/' ∧ peek (source.drop (pos + 1)) = ch '*' then (do
        let next ← skipBlockCommentAt source fuel (pos + 2)
        pure (none, next))
      else .ok (some { tok with type := (k.scan (peek (source.drop (pos + 1)))).1 },
        pos + (k.scan (peek (source.drop (pos + 1)))).2) := by
    rw [scanTokenAt, charAt_eq hpos.le]
    change Except.bind (.ok (peek (source.drop pos))) _ = _
    rw [Except.bind, hfind]
    rw [charAt_eq hpos]
    rfl
  unfold TurnAgrees scanToken
  rw [hat, drop_drop]
  by_cases hpairs : k.pairs = []
  · have hnot : peek (source.drop pos) ≠ ch '/' := hfirst ▸ hslash hpairs
    rw [if_pos hpairs, if_neg fun h => hnot h.1, if_neg fun h => hnot h.1, hscan, k.scan_alone hpairs]
    dsimp only
    rw [drop_drop]
    exact ⟨pos + 1, rfl, rfl, Nat.lt_succ_self _, hpos⟩
  rw [if_neg hpairs]
  by_cases hline : peek (source.drop pos) = ch '/' ∧ peek (source.drop (pos + 1)) = ch '/'
  · obtain ⟨hdrop, hend⟩ := drop_pos_takeWhile (fun c => c ≠ 0 ∧ c ≠ ch '\n') hpos.le
    rw [if_pos hline, if_pos hline, takeWhileAt_eq (by decide) hpos.le (by omega)]
    have hpasses : (fun c => decide (c ≠ 0 ∧ c ≠ ch '\n')) (peek (source.drop pos)) = true := by
      rw [hline.1]
      decide
    exact ⟨_, rfl, hdrop, Nat.lt_add_of_pos_right (takeWhile_peek hpos hpasses), hend⟩
  rw [if_neg hline, if_neg hline]
  by_cases hblock : peek (source.drop pos) = ch '/' ∧ peek (source.drop (pos + 1)) = ch '*'
  · have hlt := lt_of_peek hpos (by rw [hblock.2]; decide)
    obtain ⟨next, hnext, hdrop, hle, hend⟩ := @skipBlockCommentAt_eq source (pos + 2) fuel hlt (by omega)
    rw [if_pos hblock, if_pos hblock, hnext, drop_drop]
    exact ⟨next, rfl, hdrop, by omega, hend⟩
  rw [if_neg hblock, if_neg hblock, hscan]
  dsimp only
  rw [drop_drop]
  obtain ⟨hone, htwo⟩ := k.scan_pos (peek (source.drop (pos + 1)))
  refine ⟨_, rfl, rfl, by omega, ?_⟩
  rcases Nat.lt_or_eq_of_le (Nat.succ_le_of_lt hpos) with hlt | heq
  · omega
  · have hnone : peek (source.drop (pos + 1)) = 0 := by
      rw [show pos + 1 = source.length from heq, drop_length]
      rfl
    rw [hnone, hzero]
    omega

theorem scanNumberAt_eq (hfuel : source.length < fuel) (hdigit : isDigit (peek (source.drop pos)) = true) :
    (Overflows (source.drop pos) ∧ scanNumberAt source fuel pos = .error .overflow) ∨
      (¬ Overflows (source.drop pos) ∧ ∃ v next, scanNumberAt source fuel pos = .ok (v, next) ∧
        scanNumber (source.drop pos) = ((v : Int), source.drop next) ∧ pos < next ∧ next ≤ source.length) := by
  unfold scanNumberAt
  rcases @scanDigitsAt_eq source pos 0 fuel hpos.le (by omega) (Nat.zero_le _) with
    ⟨hover, herror⟩ | ⟨hnot, v, next, hok, hlist, hle, hend⟩
  · rw [herror]
    exact .inl ⟨hover, rfl⟩
  · obtain ⟨hdrop, hstop⟩ := drop_pos_takeWhile isDigit hend
    rw [hok]
    change _ ∨ _ ∧ ∃ v' next', (do
      let rest ← takeWhileAt source isDigit fuel next
      pure (v, rest.2) : Except Fault (Nat × Nat)) = _ ∧ _
    rw [takeWhileAt_eq (by decide) hend (by omega)]
    refine .inr ⟨hnot, v, _, rfl, ?_, ?_, hstop⟩
    · change scanDigits 0 (source.drop pos) = _ at hlist
      unfold scanNumber
      rw [hlist, hdrop]
    · rcases Nat.lt_or_eq_of_le hle with hlt | rfl
      · exact hlt.trans_le (Nat.le_add_right _ _)
      · exact Nat.lt_add_of_pos_right (takeWhile_peek hpos hdigit)

theorem scanTokenAt_default (hfind : operatorCases.find? (fun k => k.first = peek (source.drop pos)) = none) :
    peek (source.drop pos) ≠ ch '/' ∧ (∀ d, scanOperator (peek (source.drop pos)) d = none) ∧
    scanTokenAt source fuel pos tok = if isDigit (peek (source.drop pos)) then (do
        let r ← scanNumberAt source fuel pos
        pure (some { tok with type := .tokNumber, intVal := r.1 }, r.2))
      else if peek (source.drop pos) = ch '"' then (do
        let r ← scanStringAt source pos
        pure (some { tok with type := .tokString, str := r.1 }, r.2))
      else if isAlpha (peek (source.drop pos)) then (do
        let r ← takeWhileAt source (fun c => isAlpha c || isDigit c) fuel pos
        let type := lookupKeyword (r.1.take 255)
        pure (some (if type = .tokIdent then { tok with type := type, str := r.1.take 255 }
          else { tok with type := type }), r.2))
      else .ok (some { tok with type := .tokError }, pos + 1) := by
  refine ⟨fun hslash => ?_, fun d => ?_, ?_⟩
  · obtain ⟨k, hk, hfirst⟩ := slash_mem
    exact absurd (hfirst.trans hslash.symm) (by simpa using find?_eq_none.mp hfind k hk)
  · rw [scanOperator, hfind]
    rfl
  · rw [scanTokenAt, charAt_eq hpos.le]
    change Except.bind (.ok (peek (source.drop pos))) _ = _
    rw [Except.bind, hfind]
    rfl

theorem scanStringAt_eq :
    ∃ next, scanStringAt source pos = .ok ((scanString (source.drop (pos + 1))).1, next) ∧
      source.drop next = (scanString (source.drop (pos + 1))).2 ∧ pos < next ∧ next ≤ source.length := by
  obtain ⟨next, hnext, hdrop, hle, hend⟩ := @scanCharsAt_eq source (pos + 1) 1023 hpos
  unfold scanStringAt scanString
  rw [hnext]
  change ∃ next', (do
    let c ← charAt source next
    pure ((scanChars 1023 (source.drop (pos + 1))).1, if c = ch '"' then next + 1 else next) :
      Except Fault (CString × Nat)) = _ ∧ _
  rw [charAt_eq hend, hdrop]
  refine ⟨_, rfl, ?_, ?_, ?_⟩
  · dsimp only
    split
    · rw [← drop_drop, hdrop]
    · exact hdrop
  · split <;> omega
  · split
    · rename_i hquote
      rw [← hdrop] at hquote
      exact lt_of_peek hend (by rw [hquote]; decide)
    · exact hend

end

theorem scanTokenAt_eq (tok : Token) (hpos : pos < source.length) (hfuel : source.length < fuel) :
    (Overflows (source.drop pos) ∧ scanTokenAt source fuel pos tok = .error .overflow) ∨
      (¬ Overflows (source.drop pos) ∧ TurnAgrees source fuel pos tok) := by
  cases hfind : operatorCases.find? (fun k => k.first = peek (source.drop pos)) with
  | some k =>
    refine .inr ⟨fun h => ?_, turns_operator hpos hfuel hfind⟩
    have hdigit := (operatorCases_facts k (mem_of_find?_eq_some hfind)).1
    have hfirst : k.first = peek (source.drop pos) := by simpa using find?_some hfind
    rw [hfirst, h.isDigit] at hdigit
    cases hdigit
  | none =>
    obtain ⟨hslash, hoperator, hat⟩ := @scanTokenAt_default source pos fuel tok hpos hfind
    have hlist : scanToken (source.drop pos) tok =
        if isDigit (peek (source.drop pos)) then
          (some { tok with type := .tokNumber, intVal := (scanNumber (source.drop pos)).1 },
            (scanNumber (source.drop pos)).2)
        else if peek (source.drop pos) = ch '"' then
          (some { tok with type := .tokString, str := (scanString (source.drop (pos + 1))).1 },
            (scanString (source.drop (pos + 1))).2)
        else if isAlpha (peek (source.drop pos)) then
          (some (if lookupKeyword (scanIdent (source.drop pos)).1 = .tokIdent then
              { tok with
                type := lookupKeyword (scanIdent (source.drop pos)).1
                str := (scanIdent (source.drop pos)).1 }
            else { tok with type := lookupKeyword (scanIdent (source.drop pos)).1 }),
            (scanIdent (source.drop pos)).2)
        else (some { tok with type := .tokError }, source.drop (pos + 1)) := by
      unfold scanToken
      rw [if_neg fun h => hslash h.1, if_neg fun h => hslash h.1, hoperator, drop_drop]
    unfold TurnAgrees
    rw [hat, hlist]
    by_cases hdigit : isDigit (peek (source.drop pos)) = true
    · rw [if_pos hdigit, if_pos hdigit]
      rcases scanNumberAt_eq hpos hfuel hdigit with
        ⟨hover, herror⟩ | ⟨hnot, v, next, hok, hnumber, hlt, hend⟩
      · rw [herror]
        exact .inl ⟨hover, rfl⟩
      · rw [hok, hnumber]
        exact .inr ⟨hnot, next, rfl, rfl, hlt, hend⟩
    · refine .inr ⟨fun h => hdigit h.isDigit, ?_⟩
      rw [if_neg hdigit, if_neg hdigit]
      by_cases hquote : peek (source.drop pos) = ch '"'
      · rw [if_pos hquote, if_pos hquote]
        obtain ⟨next, hnext, hdrop, hlt, hend⟩ := scanStringAt_eq hpos
        rw [hnext]
        exact ⟨next, rfl, hdrop, hlt, hend⟩
      rw [if_neg hquote, if_neg hquote]
      by_cases halpha : isAlpha (peek (source.drop pos)) = true
      · obtain ⟨hdrop, hend⟩ := drop_pos_takeWhile (fun c => isAlpha c || isDigit c) hpos.le
        have hpasses : (fun c => isAlpha c || isDigit c) (peek (source.drop pos)) = true := by
          change (isAlpha (peek (source.drop pos)) || _) = true
          rw [halpha, Bool.true_or]
        rw [if_pos halpha, if_pos halpha, takeWhileAt_eq (by decide) hpos.le (by omega)]
        exact ⟨_, rfl, hdrop, Nat.lt_add_of_pos_right (takeWhile_peek hpos hpasses), hend⟩
      · rw [if_neg halpha, if_neg halpha]
        exact ⟨pos + 1, rfl, rfl, Nat.lt_succ_self _, hpos⟩

end Tokens

/-- Where the tokens of the source start that are not errors, whatever room there is for them. -/
def tokenStarts : (fuel : Nat) → CString → List CString
  | 0, _ => []
  | fuel + 1, s =>
    let s := skipWhitespace s
    if peek s = 0 then []
    else
      match scanToken s errorToken with
      | (none, rest) => tokenStarts fuel rest
      | (some tok, rest) =>
        if tok.type = .tokError then tokenStarts fuel rest else s :: tokenStarts fuel rest

def sourceTokens (source : CString) : List CString := tokenStarts (source.length + 1) source

section Source

variable {source : CString} {pos fuel fuel' inner count maxTokens : Nat} {tokens : List Token}

theorem scanToken_slot (s : CString) (tok tok' : Token) : (scanToken s tok).2 = (scanToken s tok').2 ∧
      (scanToken s tok).1.map Token.type = (scanToken s tok').1.map Token.type := by
  unfold scanToken
  split
  · exact ⟨rfl, rfl⟩
  split
  · exact ⟨rfl, rfl⟩
  split
  · exact ⟨rfl, rfl⟩
  split
  · exact ⟨rfl, rfl⟩
  split
  · exact ⟨rfl, rfl⟩
  split
  · dsimp only
    split <;> exact ⟨rfl, rfl⟩
  · exact ⟨rfl, rfl⟩

theorem scanToken_digit {s : CString} (h : isDigit (peek s) = true) (tok : Token) :
    scanToken s tok = (some { tok with type := .tokNumber, intVal := (scanNumber s).1 },
      (scanNumber s).2) := by
  have hslash : peek s ≠ ch '/' := by
    intro heq
    rw [heq] at h
    exact absurd h (by decide)
  have hfind : operatorCases.find? (fun k => k.first = peek s) = none :=
    find?_eq_none.mpr fun k hk heq => by
      have hdigit := (operatorCases_facts k hk).1
      rw [show k.first = peek s by simpa using heq, h] at hdigit
      cases hdigit
  have hoperator : scanOperator (peek s) (peek (s.drop 1)) = none := by
    rw [scanOperator, hfind]
    rfl
  unfold scanToken
  rw [if_neg fun h => hslash h.1, if_neg fun h => hslash h.1, hoperator]
  rw [if_pos h]

theorem tokenStarts_stop {s : CString} (h : peek s = 0) : tokenStarts fuel s = [] := by
  cases fuel with
  | zero => rfl
  | succ fuel =>
    have hwhite : skipWhitespace s = s := by
      cases s with
      | nil => rfl
      | cons c s =>
        obtain rfl : c = 0 := h
        exact dropWhile_cons_of_neg (by decide)
    rw [tokenStarts, hwhite]
    exact if_pos h

theorem tokenStarts_succ {s : CString} (h : peek (skipWhitespace s) ≠ 0)
    (tok : Token) : tokenStarts (fuel + 1) s =
      match scanToken (skipWhitespace s) tok with
      | (none, rest) => tokenStarts fuel rest
      | (some tok, rest) =>
        if tok.type = .tokError then tokenStarts fuel rest
        else skipWhitespace s :: tokenStarts fuel rest := by
  obtain ⟨hrest, htype⟩ := scanToken_slot (skipWhitespace s) errorToken tok
  rw [tokenStarts, if_neg h]
  generalize scanToken (skipWhitespace s) errorToken = r at hrest htype
  generalize scanToken (skipWhitespace s) tok = r' at hrest htype
  obtain ⟨t, rest⟩ := r
  obtain ⟨t', rest'⟩ := r'
  obtain rfl : rest = rest' := hrest
  cases t with
  | none =>
    cases t' with
    | none => rfl
    | some t' => cases htype
  | some t =>
    cases t' with
    | none => cases htype
    | some t' =>
      have heq : t.type = t'.type := some.inj htype
      dsimp only
      rw [heq]

/-- The loop does what it does on the characters that are left, unless one of the tokens that it gets to
is a number that overflows. -/
theorem tokenizeLoopAt_eq (hpos : pos ≤ source.length) (hfuel : source.length - pos < fuel)
    (hfuel' : source.length - pos < fuel') (hinner : source.length < inner) (hcount : count ≤ maxTokens) :
    ((∃ s ∈ (tokenStarts fuel' (source.drop pos)).take (maxTokens - count), Overflows s) ∧
      tokenizeLoopAt source inner maxTokens fuel pos count tokens = .error .overflow) ∨
    ((¬ ∃ s ∈ (tokenStarts fuel' (source.drop pos)).take (maxTokens - count), Overflows s) ∧
      tokenizeLoopAt source inner maxTokens fuel pos count tokens =
        .ok (tokenizeLoop maxTokens fuel' (source.drop pos) count tokens)) := by
  induction fuel generalizing pos fuel' count tokens with
  | zero => exact absurd hfuel (Nat.not_lt_zero _)
  | succ fuel ih =>
    obtain ⟨fuel', rfl⟩ : ∃ n, fuel' = n + 1 := ⟨fuel' - 1, by omega⟩
    rw [tokenizeLoopAt, charAt_eq hpos, tokenizeLoop]
    change _ ∧ (if peek (source.drop pos) ≠ 0 ∧ count < maxTokens then _ else _) = _ ∨
      _ ∧ (if peek (source.drop pos) ≠ 0 ∧ count < maxTokens then _ else _) = _
    by_cases hgo : peek (source.drop pos) ≠ 0 ∧ count < maxTokens
    · obtain ⟨hwhite, hplace⟩ := drop_pos_takeWhile isWhitespace hpos
      rw [if_pos hgo, if_pos hgo, takeWhileAt_eq (by decide) hpos (by omega)]
      change _ ∧ (do
          let c ← charAt source (pos + ((source.drop pos).takeWhile isWhitespace).length)
          _) = _ ∨ _ ∧ (do
          let c ← charAt source (pos + ((source.drop pos).takeWhile isWhitespace).length)
          _) = _
      have hle : pos ≤ pos + ((source.drop pos).takeWhile isWhitespace).length := Nat.le_add_right _ _
      generalize pos + ((source.drop pos).takeWhile isWhitespace).length = start at hwhite hplace hle ⊢
      rw [charAt_eq hplace, hwhite]
      change _ ∧ (if peek (skipWhitespace (source.drop pos)) = 0 then _ else _) = _ ∨
        _ ∧ (if peek (skipWhitespace (source.drop pos)) = 0 then _ else _) =
          Except.ok (if peek (skipWhitespace (source.drop pos)) = 0 then _ else _)
      change source.drop start = skipWhitespace (source.drop pos) at hwhite
      by_cases hstop : peek (skipWhitespace (source.drop pos)) = 0
      · rw [if_pos hstop, if_pos hstop, tokenStarts, if_pos hstop]
        refine .inr ⟨?_, rfl⟩
        rintro ⟨s, hs, -⟩
        rw [take_nil] at hs
        cases hs
      · have hlt := lt_of_peek hplace (by rw [hwhite]; exact hstop)
        obtain ⟨room, hroom⟩ : ∃ room, maxTokens - count = room + 1 := ⟨maxTokens - count - 1, by omega⟩
        rw [if_neg hstop, if_neg hstop, tokenStarts_succ hstop (tokens.getD count errorToken), hroom]
        rcases scanTokenAt_eq (tokens.getD count errorToken) hlt hinner with
          ⟨hover, herror⟩ | ⟨hnot, next, hok, hdrop, hadvance, hend⟩
        · rw [hwhite] at hover
          rw [herror, scanToken_digit hover.isDigit]
          exact .inl ⟨⟨_, mem_cons_self, hover⟩, rfl⟩
        · rw [hwhite] at hnot hok hdrop
          rw [hok]
          generalize scanToken (skipWhitespace (source.drop pos)) (tokens.getD count errorToken) = r at hdrop ⊢
          obtain ⟨t, rest⟩ := r
          obtain rfl : source.drop next = rest := hdrop
          cases t with
          | none =>
            rw [← hroom]
            exact ih hend (by omega) (by omega) hcount
          | some tok =>
            change _ ∧ tokenizeLoopAt source inner maxTokens fuel next
                (if tok.type = .tokError then count else count + 1) (tokens.set count tok) = _ ∨
              _ ∧ tokenizeLoopAt source inner maxTokens fuel next
                (if tok.type = .tokError then count else count + 1) (tokens.set count tok) = _
            by_cases herror : tok.type = .tokError
            · have hmore := @ih next fuel' count (tokens.set count tok) hend (by omega) (by omega) hcount
              dsimp only
              rw [if_pos herror, if_pos herror, ← hroom]
              exact hmore
            · have hroom' : maxTokens - (count + 1) = room := by omega
              have hmore := @ih next fuel' (count + 1) (tokens.set count tok) hend (by omega)
                (by omega) (by omega)
              rw [hroom'] at hmore
              dsimp only
              rw [if_neg herror, if_neg herror, take_succ_cons]
              rcases hmore with ⟨⟨s, hs, hover⟩, hbad⟩ | ⟨hno, hgood⟩
              · exact .inl ⟨⟨s, mem_cons_of_mem _ hs, hover⟩, hbad⟩
              · refine .inr ⟨?_, hgood⟩
                rintro ⟨s, hs, hover⟩
                rcases mem_cons.mp hs with rfl | hs
                · exact hnot hover
                · exact hno ⟨s, hs, hover⟩
    · rw [if_neg hgo, if_neg hgo]
      refine .inr ⟨?_, rfl⟩
      rintro ⟨s, hs, -⟩
      by_cases hend : peek (source.drop pos) = 0
      · rw [tokenStarts_stop hend, take_nil] at hs
        cases hs
      · have hfull : maxTokens - count = 0 := by
          have hnot : ¬ count < maxTokens := fun h => hgo ⟨hend, h⟩
          omega
        rw [hfull, take_zero] at hs
        cases hs

theorem scanToken_ne_eof {s : CString} {tok t : Token} {rest : CString}
    (h : scanToken s tok = (some t, rest)) : t.type ≠ .tokEof := by
  have hcases : ∀ k ∈ operatorCases, k.alone ≠ .tokEof ∧ ∀ p ∈ k.pairs, p.2 ≠ .tokEof := by decide
  have hkeywords : ∀ k ∈ keywords, k.2 ≠ .tokEof := by decide
  unfold scanToken at h
  split at h
  · cases h
  split at h
  · cases h
  split at h
  · rename_i type n hoperator
    cases h
    obtain ⟨k, hfind, hscan⟩ := map_eq_some_iff.mp hoperator
    obtain ⟨halone, hpairs⟩ := hcases k (mem_of_find?_eq_some hfind)
    unfold OperatorCase.scan at hscan
    split at hscan
    · rename_i p hpair
      obtain rfl : p.2 = type := congrArg Prod.fst hscan
      exact hpairs p (mem_of_find?_eq_some hpair)
    · obtain rfl : k.alone = type := congrArg Prod.fst hscan
      exact halone
  split at h
  · cases h
    exact fun h => nomatch h
  split at h
  · cases h
    exact fun h => nomatch h
  split at h
  · cases h
    have hname : lookupKeyword (scanIdent s).1 ≠ .tokEof := by
      unfold lookupKeyword
      split
      · rename_i k hfind
        exact hkeywords k (mem_of_find?_eq_some hfind)
      · exact fun h => nomatch h
    split <;> exact hname
  · cases h
    exact fun h => nomatch h

def NoEof (count : Nat) (tokens : List Token) : Prop :=
  ∀ i < count, ∀ t, tokens[i]? = some t → t.type ≠ .tokEof

theorem NoEof.set (h : NoEof count tokens) {tok : Token} (htype : tok.type ≠ .tokEof) :
    NoEof (count + 1) (tokens.set count tok) := by
  intro i hi t ht
  rw [getElem?_set] at ht
  split at ht
  · split at ht
    · cases ht
      exact htype
    · cases ht
  · exact h i (by omega) t ht

theorem NoEof.set_here (h : NoEof count tokens) (tok : Token) : NoEof count (tokens.set count tok) := by
  intro i hi t ht
  rw [getElem?_set_ne (by omega)] at ht
  exact h i hi t ht

theorem tokenizeLoop_count {s : CString} (hcount : count ≤ maxTokens) (hnone : NoEof count tokens) :
    (tokenizeLoop maxTokens fuel s count tokens).1 = min maxTokens (count + (tokenStarts fuel s).length) ∧
      NoEof (tokenizeLoop maxTokens fuel s count tokens).1 (tokenizeLoop maxTokens fuel s count tokens).2 ∧
      (tokenizeLoop maxTokens fuel s count tokens).2.length = tokens.length := by
  induction fuel generalizing s count tokens with
  | zero => exact ⟨(Nat.min_eq_right hcount).symm, hnone, rfl⟩
  | succ fuel ih =>
    rw [tokenizeLoop]
    by_cases hgo : peek s ≠ 0 ∧ count < maxTokens
    · rw [if_pos hgo]
      by_cases hstop : peek (skipWhitespace s) = 0
      · rw [if_pos hstop, tokenStarts, if_pos hstop]
        exact ⟨(Nat.min_eq_right hcount).symm, hnone, rfl⟩
      · rw [if_neg hstop, tokenStarts_succ hstop (tokens.getD count errorToken)]
        cases hscan : scanToken (skipWhitespace s) (tokens.getD count errorToken) with
        | mk t rest =>
          cases t with
          | none => exact ih hcount hnone
          | some tok =>
            dsimp only
            by_cases herror : tok.type = .tokError
            · obtain ⟨hsum, hkeeps, hlength⟩ :=
                @ih count (tokens.set count tok) rest hcount (hnone.set_here tok)
              rw [if_pos herror, if_pos herror]
              exact ⟨hsum, hkeeps, hlength.trans length_set⟩
            · obtain ⟨hsum, hkeeps, hlength⟩ := @ih (count + 1) (tokens.set count tok) rest hgo.2
                (hnone.set (scanToken_ne_eof hscan))
              rw [if_neg herror, if_neg herror, length_cons]
              refine ⟨hsum.trans ?_, hkeeps, hlength.trans length_set⟩
              omega
    · rw [if_neg hgo]
      refine ⟨?_, hnone, rfl⟩
      by_cases hend : peek s = 0
      · rw [tokenStarts_stop hend]
        exact (Nat.min_eq_right hcount).symm
      · have hfull : count = maxTokens := hcount.antisymm (Nat.le_of_not_lt fun h => hgo ⟨hend, h⟩)
        rw [hfull]
        exact (Nat.min_eq_left (Nat.le_add_right _ _)).symm

end Source

/-- The lexer comes back, with no more tokens than there is room for and `TOK_EOF` as the last one. -/
def Lexes (fuel : Nat) (source : CString) (tokens : List Token) (maxTokens : Nat) : Prop :=
  ∃ count tokens', tokenizeAt fuel source tokens maxTokens = .ok (count, tokens') ∧ 0 < count ∧
    count ≤ maxTokens ∧ ∃ tok, tokens'[count - 1]? = some tok ∧ tok.type = .tokEof

section Whole

variable {source : CString} {tokens : List Token} {maxTokens fuel : Nat}

theorem tokenizeAt_eq (tokens : List Token) (hfuel : source.length < fuel) :
    ((∃ s ∈ (sourceTokens source).take maxTokens, Overflows s) ∧
      tokenizeAt fuel source tokens maxTokens = .error .overflow) ∨
    ((¬ ∃ s ∈ (sourceTokens source).take maxTokens, Overflows s) ∧
      tokenizeAt fuel source tokens maxTokens = .ok (tokenizeCCode source tokens maxTokens)) := by
  unfold tokenizeAt
  rcases @tokenizeLoopAt_eq source 0 fuel (source.length + 1) fuel 0 maxTokens tokens (Nat.zero_le _)
    (by omega) (by omega) hfuel (Nat.zero_le _) with ⟨hover, herror⟩ | ⟨hnot, hok⟩
  · rw [herror]
    exact .inl ⟨hover, rfl⟩
  · rw [hok]
    exact .inr ⟨hnot, rfl⟩

theorem tokenizeCCode_last (source : CString) (hmax : 0 < maxTokens) (harray : maxTokens ≤ tokens.length) :
    0 < (tokenizeCCode source tokens maxTokens).1 ∧ (tokenizeCCode source tokens maxTokens).1 ≤ maxTokens ∧
      ((∃ tok, (tokenizeCCode source tokens maxTokens).2[(tokenizeCCode source tokens maxTokens).1 - 1]? =
          some tok ∧ tok.type = .tokEof) ↔ (sourceTokens source).length < maxTokens) := by
  obtain ⟨hsum, hnone, hlength⟩ := @tokenizeLoop_count (source.length + 1) 0 maxTokens tokens source
    (Nat.zero_le _) fun i hi => absurd hi (Nat.not_lt_zero i)
  change _ = min maxTokens (0 + (sourceTokens source).length) at hsum
  unfold tokenizeCCode
  generalize tokenizeLoop maxTokens (source.length + 1) source 0 tokens = r at hsum hnone hlength ⊢
  by_cases hroom : r.1 < maxTokens
  · rw [if_pos hroom]
    refine ⟨Nat.succ_pos _, hroom, fun _ => by omega, fun _ => ?_⟩
    have hin : r.1 < r.2.length := by omega
    refine ⟨{ r.2[r.1] with type := .tokEof }, ?_, rfl⟩
    change (r.2.modify r.1 _)[r.1]? = _
    rw [getElem?_modify_eq, getElem?_eq_getElem hin]
    rfl
  · rw [if_neg hroom]
    refine ⟨by omega, by omega, ?_, fun h => by omega⟩
    rintro ⟨tok, htok, htype⟩
    exact absurd htype (hnone (r.1 - 1) (by omega) tok htok)

end Whole

/-- The lexer never reads behind the terminator, and returns what it should exactly where there is room for one
token more and no number overflows. -/
theorem lexes_iff (source : CString) (tokens : List Token) (maxTokens fuel : Nat) (hmax : 0 < maxTokens)
    (harray : maxTokens ≤ tokens.length) (hfuel : source.length < fuel) :
    (tokenizeAt fuel source tokens maxTokens ≠ .error .outside ∧
      tokenizeAt fuel source tokens maxTokens ≠ .error .endless) ∧ (Lexes fuel source tokens maxTokens ↔
      (sourceTokens source).length < maxTokens ∧ ∀ s ∈ sourceTokens source, ¬ Overflows s) := by
  obtain ⟨hpos, hle, hlast⟩ := @tokenizeCCode_last tokens maxTokens source hmax harray
  rcases @tokenizeAt_eq source maxTokens fuel tokens hfuel with ⟨hover, herror⟩ | ⟨hnot, hok⟩
  · rw [herror]
    refine ⟨⟨fun h => (nomatch h), fun h => (nomatch h)⟩, ?_, ?_⟩
    · rintro ⟨count, tokens', hresult, -⟩
      rw [herror] at hresult
      cases hresult
    · rintro ⟨-, hnone⟩
      obtain ⟨s, hs, hbad⟩ := hover
      exact absurd hbad (hnone s (mem_of_mem_take hs))
  · rw [hok]
    refine ⟨⟨fun h => (nomatch h), fun h => (nomatch h)⟩, ?_, ?_⟩
    · rintro ⟨count, tokens', hresult, -, -, heof⟩
      rw [hok] at hresult
      rw [Except.ok.inj hresult] at hlast
      have hroom := hlast.mp heof
      refine ⟨hroom, fun s hs hbad => hnot ⟨s, ?_, hbad⟩⟩
      rw [take_of_length_le hroom.le]
      exact hs
    · rintro ⟨hroom, -⟩
      exact ⟨_, _, hok, hpos, hle, hlast.mpr hroom⟩

section Trial

def trialArray : List Token := [errorToken, errorToken]

theorem lexes_name : Lexes 9 (cstring "sum += i") (trialArray ++ trialArray) 4 := by
  refine (lexes_iff _ _ 4 9 (by decide) (by decide) (by decide)).2.mpr ⟨by decide, ?_⟩
  have hsource : sourceTokens (cstring "sum += i") = [cstring "sum += i", cstring "+= i", cstring "i"] := by
    decide
  rw [hsource]
  intro s hs hbad
  rcases mem_cons.mp hs with rfl | hs
  · exact absurd hbad.isDigit (by decide)
  rcases mem_cons.mp hs with rfl | hs
  · exact absurd hbad.isDigit (by decide)
  · rw [mem_singleton.mp hs] at hbad
    exact absurd hbad.isDigit (by decide)

/-- One more than `INT_MAX` overflows, and a token in the last slot leaves no room for `TOK_EOF`. -/
theorem not_lexes : tokenizeAt 12 (cstring "2147483648") trialArray 2 = .error .overflow ∧
      ¬ Lexes 12 (cstring "2147483648") trialArray 2 ∧ ¬ Lexes 3 [ch ';'] trialArray 1 := by
  have hover : tokenizeAt 12 (cstring "2147483648") trialArray 2 = .error .overflow := by decide
  have hfull : tokenizeAt 3 [ch ';'] trialArray 1 =
      .ok (1, [{ errorToken with type := .tokSemicolon }, errorToken]) := by decide
  refine ⟨hover, ?_, ?_⟩
  · rintro ⟨count, tokens', hresult, -⟩
    cases hresult
  · rintro ⟨count, tokens', hresult, -, -, tok, htok, htype⟩
    cases hresult
    cases htok
    cases htype

end Trial

end JexOs.Tcc
