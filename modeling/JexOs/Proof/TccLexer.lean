import JexOs.TccLexer

/-!
# Tokens survive their own source text

A list of tokens is written out with white space and comments behind each token. The lexer reads back
the list it was written from.
-/

namespace JexOs.Tcc

open X86 (Byte)
open List List

/-! ### Source text -/

/-- A token as the parser reads it: the type decides which field of `token_t` counts. -/
inductive Lexeme where
  | symbol (type : TokenType)
  | ident (name : CString)
  | number (val : Int)
  | string (chars : CString)
deriving DecidableEq, Repr

def Token.lexeme (tok : Token) : Lexeme :=
  match tok.type with
  | .tokIdent => .ident tok.str
  | .tokNumber => .number tok.intVal
  | .tokString => .string tok.str
  | type => .symbol type

def operators : List (TokenType × CString) :=
  [(.tokPlus, cstring "+"), (.tokMinus, cstring "-"), (.tokStar, cstring "*"),
    (.tokSlash, cstring "/"), (.tokPercent, cstring "%"), (.tokAssign, cstring "="),
    (.tokEq, cstring "=="), (.tokNeq, cstring "!="), (.tokLt, cstring "<"), (.tokGt, cstring ">"),
    (.tokLe, cstring "<="), (.tokGe, cstring ">="), (.tokLogand, cstring "&&"),
    (.tokLogor, cstring "||"), (.tokLognot, cstring "!"), (.tokNot, cstring "~"),
    (.tokAnd, cstring "&"), (.tokPlusplus, cstring "++"), (.tokMinusminus, cstring "--"),
    (.tokShl, cstring "<<"), (.tokShr, cstring ">>"), (.tokPluseq, cstring "+="),
    (.tokMinuseq, cstring "-="), (.tokStareq, cstring "*="), (.tokSlasheq, cstring "/="),
    (.tokPercenteq, cstring "%="), (.tokSemicolon, cstring ";"), (.tokComma, cstring ","),
    (.tokLparen, cstring "("), (.tokRparen, cstring ")"), (.tokLbrace, cstring "\x7b"),
    (.tokRbrace, cstring "\x7d"), (.tokLbracket, cstring "["), (.tokRbracket, cstring "]")]

def spelling (type : TokenType) : CString :=
  ((operators ++ keywords.map Prod.swap).lookup type).getD []

def decimal (n : Nat) : CString := (Nat.toDigits 10 n).map ch

def escape (c : Byte) : CString := if c = ch '"' ∨ c = ch '\\' then [ch '\\', c] else [c]

def Lexeme.render : Lexeme → CString
  | .symbol type => spelling type
  | .ident name => name
  | .number val => decimal val.toNat
  | .string chars => ch '"' :: (chars.flatMap escape ++ [ch '"'])

def Lexeme.Valid : Lexeme → Prop
  | .symbol type => type ∈ operators.map Prod.fst ∨ type ∈ keywords.map Prod.snd
  | .ident name =>
    (∀ c ∈ name, isAlpha c ∨ isDigit c) ∧ (∃ c ∈ name.head?, isAlpha c) ∧
      name.length ≤ 255 ∧ name ∉ keywords.map Prod.fst
  | .number val => 0 ≤ val ∧ val ≤ 2147483647
  | .string chars => 0 ∉ chars ∧ chars.length ≤ 1023

instance : DecidablePred Lexeme.Valid
  | .symbol type =>
    inferInstanceAs (Decidable (type ∈ operators.map Prod.fst ∨ type ∈ keywords.map Prod.snd))
  | .ident name =>
    inferInstanceAs (Decidable ((∀ c ∈ name, isAlpha c ∨ isDigit c) ∧
      (∃ c ∈ name.head?, isAlpha c) ∧ name.length ≤ 255 ∧ name ∉ keywords.map Prod.fst))
  | .number val => inferInstanceAs (Decidable (0 ≤ val ∧ val ≤ 2147483647))
  | .string chars => inferInstanceAs (Decidable (0 ∉ chars ∧ chars.length ≤ 1023))

/-- White space, a block comment, or a line comment with the end of its line. -/
inductive Gap where
  | white (c : Byte)
  | block (text : CString)
  | line (text : CString)

def Gap.render : Gap → CString
  | .white c => [c]
  | .block text => cstring "/*" ++ text ++ cstring "*/"
  | .line text => cstring "//" ++ text ++ cstring "\n"

def Gap.Valid : Gap → Prop
  | .white c => isWhitespace c
  | .block text => 0 ∉ text ∧ ¬cstring "*/" <:+: text
  | .line text => 0 ∉ text ∧ ch '\n' ∉ text

instance : DecidablePred Gap.Valid
  | .white c => inferInstanceAs (Decidable (isWhitespace c = true))
  | .block text => inferInstanceAs (Decidable (0 ∉ text ∧ ¬cstring "*/" <:+: text))
  | .line text => inferInstanceAs (Decidable (0 ∉ text ∧ ch '\n' ∉ text))

/-- A token, the white space behind it, and what follows until the next token. -/
structure Piece where
  lexeme : Lexeme
  white : Byte
  gaps : List Gap

def Piece.render (p : Piece) : CString := p.lexeme.render ++ p.white :: p.gaps.flatMap Gap.render

structure Piece.Valid (p : Piece) : Prop where
  lexeme : p.lexeme.Valid
  white : isWhitespace p.white
  gaps : ∀ g ∈ p.gaps, g.Valid

instance (p : Piece) : Decidable p.Valid :=
  decidable_of_iff (p.lexeme.Valid ∧ isWhitespace p.white ∧ ∀ g ∈ p.gaps, g.Valid)
    ⟨fun h => ⟨h.1, h.2.1, h.2.2⟩, fun h => ⟨h.lexeme, h.white, h.gaps⟩⟩

def renderPieces (pieces : List Piece) : CString := pieces.flatMap Piece.render

/-! ### Characters -/

theorem isWhitespace_classes : ∀ w : Byte, isWhitespace w → w ≠ 0 ∧ isDigit w = false ∧ isAlpha w = false := by
  decide +kernel

theorem isAlpha_start : ∀ c : Byte, isAlpha c →
    c ≠ 0 ∧ isWhitespace c = false ∧ c ≠ ch '/' ∧ scanOperator c 0 = none ∧ isDigit c = false ∧
    c ≠ ch '"' := by
  decide +kernel

theorem isDigit_start : ∀ c : Byte, isDigit c →
    c ≠ 0 ∧ isWhitespace c = false ∧ c ≠ ch '/' ∧ scanOperator c 0 = none := by
  decide +kernel

variable {c w : Byte} {s name text : CString} {p : TokenType × CString} {room : Nat}

theorem scanOperator_eq_none {next : Byte} (h : scanOperator c 0 = none) : scanOperator c next = none := by
  simpa only [scanOperator, Option.map_eq_none_iff] using h

/-! ### One token -/

def Solid (s : CString) : Prop := peek s ≠ 0 ∧ isWhitespace (peek s) = false

instance (s : CString) : Decidable (Solid s) :=
  inferInstanceAs (Decidable (peek s ≠ 0 ∧ isWhitespace (peek s) = false))

def Scans (lex : Lexeme) : Prop :=
  Solid lex.render ∧ ∀ (w : Byte) (rest : CString) (tok : Token), isWhitespace w →
    ∃ tok', scanToken (lex.render ++ w :: rest) tok = (some tok', w :: rest) ∧
      tok'.lexeme = lex ∧ tok'.type ≠ .tokError

theorem scanToken_operator {tok : Token} {type : TokenType} {n : Nat}
    (hcomment : peek s = ch '/' → peek (s.drop 1) ≠ ch '/' ∧ peek (s.drop 1) ≠ ch '*')
    (hscan : scanOperator (peek s) (peek (s.drop 1)) = some (type, n)) :
    scanToken s tok = (some { tok with type := type }, s.drop n) := by
  rw [scanToken, if_neg fun h => (hcomment h.1).1 h.2, if_neg fun h => (hcomment h.1).2 h.2, hscan]

theorem operators_scan : ∀ p ∈ operators, ∀ w ∈ [ch ' ', ch '\t', ch '\n', ch '\r'],
    let next := peek ((p.2 ++ [w]).drop 1)
    p.2 ≠ [] ∧ Solid p.2 ∧ (peek p.2 = ch '/' → next ≠ ch '/' ∧ next ≠ ch '*') ∧
      scanOperator (peek p.2) next = some (p.1, p.2.length) := by
  decide +kernel

theorem spelling_eq : ∀ p ∈ operators ++ keywords.map Prod.swap, spelling p.1 = p.2 := by
  decide +kernel

theorem symbols_plain : ∀ p ∈ operators ++ keywords.map Prod.swap,
    p.1 ∉ [TokenType.tokIdent, .tokNumber, .tokString, .tokError] := by
  decide +kernel

theorem Token.lexeme_symbol (hp : p ∈ operators ++ keywords.map Prod.swap) (tok : Token) :
    ({ tok with type := p.1 } : Token).lexeme = .symbol p.1 ∧ p.1 ≠ .tokError := by
  have hplain := symbols_plain p hp
  generalize p.1 = type at hplain ⊢
  cases type <;> simp_all [Token.lexeme]

theorem isWhitespace_mem (h : isWhitespace w) : w ∈ [ch ' ', ch '\t', ch '\n', ch '\r'] := by
  simpa [isWhitespace] using h

@[simp] theorem peek_cons (c : Byte) (s : CString) : peek (c :: s) = c := rfl

theorem peek_append {t : CString} (h : s ≠ []) : peek (s ++ t) = peek s := by
  obtain ⟨c, s, rfl⟩ := exists_cons_of_ne_nil h
  rfl

theorem peek_drop_append (h : s ≠ []) (w : Byte) (rest : CString) :
    peek ((s ++ w :: rest).drop 1) = peek ((s ++ [w]).drop 1) := by
  obtain ⟨c, s, rfl⟩ := exists_cons_of_ne_nil h
  cases s <;> rfl

theorem scans_operator (hp : p ∈ operators) : Scans (.symbol p.1) := by
  have hp' := mem_append_left (keywords.map Prod.swap) hp
  constructor
  · rw [Lexeme.render, spelling_eq p hp']
    exact (operators_scan p hp (ch ' ') (by decide)).2.1
  intro w rest tok hw
  obtain ⟨hne, -, hcomment, hscan⟩ := operators_scan p hp w (isWhitespace_mem hw)
  refine ⟨{ tok with type := p.1 }, ?_, Token.lexeme_symbol hp' tok⟩
  rw [Lexeme.render, spelling_eq p hp']
  rw [← peek_append (t := w :: rest) hne, ← peek_drop_append hne w rest] at hcomment hscan
  rw [scanToken_operator hcomment hscan, drop_left]

theorem scanToken_default {tok : Token} (hslash : peek s ≠ ch '/') (hscan : scanOperator (peek s) 0 = none) :
    scanToken s tok = if isDigit (peek s) then
        (some { tok with type := .tokNumber, intVal := (scanNumber s).1 }, (scanNumber s).2)
      else if peek s = ch '"' then
        (some { tok with type := .tokString, str := (scanString (s.drop 1)).1 },
          (scanString (s.drop 1)).2)
      else if isAlpha (peek s) then
        (some (if lookupKeyword (scanIdent s).1 = .tokIdent then
            { tok with type := lookupKeyword (scanIdent s).1, str := (scanIdent s).1 }
          else { tok with type := lookupKeyword (scanIdent s).1 }), (scanIdent s).2)
      else (some { tok with type := .tokError }, s.drop 1) := by
  rw [scanToken, if_neg fun h => hslash h.1, if_neg fun h => hslash h.1, scanOperator_eq_none hscan]

/-! ### Names -/

structure IsName (name : CString) : Prop where
  inside : ∀ c ∈ name, isAlpha c ∨ isDigit c
  start : isAlpha (peek name)
  length : name.length ≤ 255

theorem scanIdent_name (h : IsName name) (hw : isWhitespace w)
    (rest : CString) : scanIdent (name ++ w :: rest) = (name, w :: rest) := by
  have hinside : ∀ c ∈ name, (isAlpha c || isDigit c) = true := by
    intro c hc
    simpa using h.inside c hc
  obtain ⟨-, hdigit, halpha⟩ := isWhitespace_classes w hw
  rw [scanIdent, takeWhile_append_of_pos hinside, dropWhile_append_of_pos hinside]
  simp [hdigit, halpha, take_of_length_le h.length]

theorem scanToken_name (h : IsName name) (hw : isWhitespace w) (rest : CString) (tok : Token) :
    scanToken (name ++ w :: rest) tok =
      (some (if lookupKeyword name = .tokIdent then { tok with type := lookupKeyword name, str := name }
        else { tok with type := lookupKeyword name }), w :: rest) := by
  have hne : name ≠ [] := by
    rintro rfl
    exact absurd h.start (by decide)
  obtain ⟨-, -, hslash, hscan, hdigit, hquote⟩ := isAlpha_start _ h.start
  rw [← peek_append (t := w :: rest) hne] at hslash hscan hdigit hquote
  have halpha : isAlpha (peek (name ++ w :: rest)) := by
    rw [peek_append hne]
    exact h.start
  rw [scanToken_default hslash hscan, if_neg (by simp [hdigit]), if_neg hquote, if_pos halpha,
    scanIdent_name h hw]

theorem keywords_name : ∀ k ∈ keywords, lookupKeyword k.1 = k.2 ∧ k.2 ≠ .tokIdent ∧
    (∀ c ∈ k.1, isAlpha c ∨ isDigit c) ∧ isAlpha (peek k.1) ∧ k.1.length ≤ 255 := by
  decide +kernel

theorem IsName.solid (h : IsName name) : Solid name := by
  obtain ⟨hzero, hwhite, -⟩ := isAlpha_start _ h.start
  exact ⟨hzero, hwhite⟩

theorem scans_keyword {k : CString × TokenType} (hk : k ∈ keywords) : Scans (.symbol k.2) := by
  obtain ⟨hlookup, hident, hinside, hstart, hlength⟩ := keywords_name k hk
  have hname : IsName k.1 := ⟨hinside, hstart, hlength⟩
  have hk' : k.swap ∈ operators ++ keywords.map Prod.swap := mem_append_right _ (mem_map_of_mem hk)
  have hspell : spelling k.2 = k.1 := spelling_eq _ hk'
  rw [Scans, Lexeme.render, hspell]
  refine ⟨hname.solid, fun w rest tok hw => ?_⟩
  refine ⟨{ tok with type := k.2 }, ?_, Token.lexeme_symbol hk' tok⟩
  rw [scanToken_name hname hw, hlookup, if_neg hident]

theorem scans_ident (h : (Lexeme.ident name).Valid) : Scans (.ident name) := by
  obtain ⟨hinside, ⟨c, hc, halpha⟩, hlength, hkeyword⟩ := h
  have hname : IsName name :=
    { inside := hinside
      start := by rw [peek, headD_eq_head?_getD, hc]; exact halpha
      length := hlength }
  have hlookup : lookupKeyword name = .tokIdent := by
    have hfind : keywords.find? (fun k => k.1 = name) = none := by
      rw [find?_eq_none]
      intro k hk hkname
      apply hkeyword
      rw [← of_decide_eq_true hkname]
      exact mem_map_of_mem hk
    rw [lookupKeyword, hfind]
  refine ⟨hname.solid, fun w rest tok hw => ?_⟩
  refine ⟨{ tok with type := .tokIdent, str := name }, ?_, rfl, nofun⟩
  rw [Lexeme.render, scanToken_name hname hw, hlookup, if_pos rfl]

/-! ### Numbers -/

theorem digitChar_byte :
    ∀ d < 10, isDigit (ch (Nat.digitChar d)) ∧ ((ch (Nat.digitChar d)).toNat : Int) - 48 = d := by
  decide

theorem scanDigits_digit {m d : Nat} (hd : d < 10) (hfits : m * 10 + d ≤ 2147483647) (s : CString) :
    scanDigits m (ch (Nat.digitChar d) :: s) = scanDigits (m * 10 + d : Nat) s := by
  obtain ⟨hdigit, hval⟩ := digitChar_byte d hd
  have hsmall : ¬(m : Int) > 214748364 := by omega
  have hwrap : ((m : Int) * 10 + d).bmod (2 ^ 32) = (m * 10 + d : Nat) := by
    rw [Int.bmod_def]
    omega
  rw [scanDigits, if_pos hdigit, if_neg hsmall, hval, hwrap]

theorem scanDigits_decimal (n : Nat) (h : n ≤ 2147483647) (s : CString) :
    scanDigits 0 (decimal n ++ s) = scanDigits n s := by
  -- the last digit is read after the digits of `n / 10`
  induction n using Nat.strongRecOn generalizing s with
  | ind n ih =>
    rw [decimal, Nat.toDigits_eq_if (by decide)]
    split
    · next hn =>
        have hdigit := scanDigits_digit (m := 0) hn (by omega) s
        simpa using hdigit
    · next hn =>
        have hleading := ih (n / 10) (by omega) (by omega) (ch (Nat.digitChar (n % 10)) :: s)
        rw [map_append, append_assoc]
        refine hleading.trans ?_
        rw [scanDigits_digit (Nat.mod_lt n (by decide)) (by omega), Nat.div_add_mod' n 10]

theorem isDigit_ch {c : Char} (h : c.isDigit) : isDigit (ch c) := by
  have hrange : 48 ≤ c.toNat ∧ c.toNat ≤ 57 := by
    simpa [Char.isDigit, UInt32.le_iff_toNat_le] using h
  have hbyte : (ch c).toNat = c.toNat := by
    rw [ch, BitVec.toNat_ofNat, Nat.mod_eq_of_lt (by omega)]
  simp only [isDigit, BitVec.le_def, hbyte, decide_eq_true_eq]
  exact hrange

theorem isDigit_peek_decimal (n : Nat) : isDigit (peek (decimal n)) := by
  have hdigits : ∀ c ∈ Nat.toDigits 10 n, c.isDigit := by
    intro c hc
    exact Nat.isDigit_of_mem_toDigits (by decide) (by decide) hc
  obtain ⟨c, cs, hcs⟩ := exists_cons_of_ne_nil (Nat.toDigits_ne_nil (n := n) (b := 10))
  rw [hcs] at hdigits
  rw [decimal, hcs]
  exact isDigit_ch (hdigits c mem_cons_self)

theorem scans_number {val : Int} (h : (Lexeme.number val).Valid) : Scans (.number val) := by
  obtain ⟨hpos, hmax⟩ := h
  obtain ⟨n, rfl⟩ : ∃ n : Nat, val = n := ⟨val.toNat, by omega⟩
  have hfits : n ≤ 2147483647 := by omega
  constructor
  · obtain ⟨hzero, hwhite, -⟩ := isDigit_start _ (isDigit_peek_decimal n)
    exact ⟨hzero, hwhite⟩
  intro w rest tok hw
  obtain ⟨-, hdigit, -⟩ := isWhitespace_classes w hw
  have hnumber : scanNumber (decimal n ++ w :: rest) = ((n : Int), w :: rest) := by
    rw [scanNumber, scanDigits_decimal n hfits]
    simp [scanDigits, hdigit]
  have hne : decimal n ≠ [] := by
    simp [decimal, Nat.toDigits_ne_nil]
  have hstart : isDigit (peek (decimal n ++ w :: rest)) := by
    rw [peek_append hne]
    exact isDigit_peek_decimal n
  obtain ⟨-, -, hslash, hscan⟩ := isDigit_start _ hstart
  refine ⟨{ tok with type := .tokNumber, intVal := n }, ?_, rfl, nofun⟩
  change scanToken (decimal n ++ w :: rest) tok = _
  rw [scanToken_default hslash hscan, if_pos hstart, hnumber]

/-! ### Strings -/

theorem scanChars_plain (hc : c ≠ 0) (hquote : c ≠ ch '"') (hslash : c ≠ ch '\\') (s : CString) :
    scanChars (room + 1) (c :: s) = (c :: (scanChars room s).1, (scanChars room s).2) := by
  rw [scanChars, peek_cons, if_neg (not_or.mpr ⟨hquote, hc⟩), if_neg fun h => hslash h.1]
  rfl

theorem scanChars_backslash (hc : c ≠ 0) (s : CString) : scanChars (room + 1) (ch '\\' :: c :: s) =
      (unescape c :: (scanChars room s).1, (scanChars room s).2) := by
  rw [scanChars, peek_cons, if_neg (by decide), if_pos ⟨rfl, hc⟩]
  rfl

theorem scanChars_escape (hc : c ≠ 0) (s : CString) :
    scanChars (room + 1) (escape c ++ s) = (c :: (scanChars room s).1, (scanChars room s).2) := by
  rw [escape]
  split
  · next h =>
      have hkeep : unescape c = c := by
        rcases h with rfl | rfl <;> rfl
      rw [cons_append, cons_append, nil_append, scanChars_backslash hc, hkeep]
  · next h =>
      rw [not_or] at h
      exact scanChars_plain hc h.1 h.2 s

theorem scanChars_literal (chars : CString) (h : 0 ∉ chars) (room : Nat)
    (hroom : chars.length ≤ room) (s : CString) :
    scanChars room (chars.flatMap escape ++ ch '"' :: s) = (chars, ch '"' :: s) := by
  induction chars generalizing room with
  | nil =>
    cases room with
    | zero => rfl
    | succ room =>
      rw [flatMap_nil, nil_append, scanChars, peek_cons, if_pos (.inl rfl)]
  | cons c chars ih =>
    rw [mem_cons, not_or] at h
    obtain ⟨room, rfl⟩ : ∃ r, room = r + 1 := ⟨room - 1, by simp at hroom; omega⟩
    rw [flatMap_cons, append_assoc, scanChars_escape (Ne.symm h.1), ih h.2 room (by simpa using hroom)]

theorem scans_string {chars : CString} (h : (Lexeme.string chars).Valid) : Scans (.string chars) := by
  constructor
  · exact (by decide : ch '"' ≠ 0 ∧ isWhitespace (ch '"') = false)
  intro w rest tok hw
  refine ⟨{ tok with type := .tokString, str := chars }, ?_, rfl, nofun⟩
  have hscan : scanString (chars.flatMap escape ++ ch '"' :: w :: rest) = (chars, w :: rest) := by
    rw [scanString, scanChars_literal chars h.1 1023 h.2]
    rfl
  rw [Lexeme.render, cons_append, append_assoc, cons_append, nil_append]
  rw [scanToken_default (by rw [peek_cons]; decide) (by rw [peek_cons]; decide), peek_cons,
    if_neg (by decide), if_pos rfl, drop_succ_cons, drop_zero, hscan]

theorem Lexeme.Valid.scans {lex : Lexeme} (h : lex.Valid) : Scans lex := by
  cases lex with
  | symbol type =>
    rcases h with h | h
    · obtain ⟨p, hp, rfl⟩ := mem_map.mp h
      exact scans_operator hp
    · obtain ⟨k, hk, rfl⟩ := mem_map.mp h
      exact scans_keyword hk
  | ident name => exact scans_ident h
  | number val => exact scans_number h
  | string chars => exact scans_string h

/-! ### White space and comments -/

theorem skipWhitespace_solid (h : Solid s) : skipWhitespace s = s := by
  cases s with
  | nil => rfl
  | cons c s => rw [skipWhitespace, dropWhile_cons_of_neg (by simpa using h.2)]

theorem skipWhitespace_cons (hw : isWhitespace w) (s : CString) : skipWhitespace (w :: s) = skipWhitespace s :=
  dropWhile_cons_of_pos hw

theorem skipLineComment_line (hzero : 0 ∉ text) (hline : ch '\n' ∉ text) (s : CString) :
    skipLineComment (cstring "//" ++ text ++ cstring "\n" ++ s) = ch '\n' :: s := by
  have hinside : ∀ c ∈ cstring "//" ++ text, decide (c ≠ 0 ∧ c ≠ ch '\n') = true := by
    intro c hc
    rw [decide_eq_true_eq]
    rcases mem_append.mp hc with hc | hc
    · exact (by decide : ∀ c ∈ cstring "//", c ≠ 0 ∧ c ≠ ch '\n') c hc
    · constructor
      · rintro rfl
        exact hzero hc
      · rintro rfl
        exact hline hc
  rw [skipLineComment, append_assoc, dropWhile_append_of_pos hinside]
  exact dropWhile_cons_of_neg (by decide)

theorem skipBlockComment_block (hzero : 0 ∉ text) (hend : ¬cstring "*/" <:+: text)
    (s : CString) : skipBlockComment (text ++ cstring "*/" ++ s) = s := by
  induction text with
  | nil => rfl
  | cons c text ih =>
    rw [mem_cons, not_or] at hzero
    have hrest : skipBlockComment (text ++ cstring "*/" ++ s) = s :=
      ih hzero.2 fun h => hend (infix_cons_iff.mpr (.inr h))
    have hopen : ¬(c = ch '*' ∧ peek (text ++ cstring "*/" ++ s) = ch '/') := by
      rintro ⟨rfl, hslash⟩
      cases text with
      | nil => exact absurd hslash (by decide : ch '*' ≠ ch '/')
      | cons d text =>
        obtain rfl : d = ch '/' := hslash
        exact hend (List.prefix_append [ch '*', ch '/'] text).isInfix
    rw [cons_append, cons_append, skipBlockComment, if_neg (Ne.symm hzero.1), if_neg hopen, hrest]

section Loop

variable {maxTokens fuel count : Nat} {s rest : CString} {tokens : List Token}

theorem tokenizeLoop_stop
    (hs : peek s = 0) : tokenizeLoop maxTokens fuel s count tokens = (count, tokens) := by
  cases fuel with
  | zero => rfl
  | succ fuel => rw [tokenizeLoop, if_neg fun h => h.1 hs]

theorem tokenizeLoop_white {w : Byte} (hw : isWhitespace w) :
    tokenizeLoop maxTokens (fuel + 1) (w :: s) count tokens =
      tokenizeLoop maxTokens (fuel + 1) s count tokens := by
  have hne : peek (w :: s) ≠ 0 := (isWhitespace_classes w hw).1
  rw [tokenizeLoop]
  by_cases hs : peek s = 0
  · rw [tokenizeLoop_stop hs]
    have hskip : peek (skipWhitespace (w :: s)) = 0 := by
      rw [skipWhitespace_cons hw]
      cases s with
      | nil => rfl
      | cons c s =>
        obtain rfl : c = 0 := hs
        rfl
    split
    · rw [if_pos hskip]
    · rfl
  · simp only [tokenizeLoop, hne, hs, skipWhitespace_cons hw, ne_eq, not_false_eq_true, true_and]

theorem tokenizeLoop_comment (hsolid : Solid s) (hcount : count < maxTokens)
    (hscan : ∀ tok, scanToken s tok = (none, rest)) :
    tokenizeLoop maxTokens (fuel + 1) s count tokens = tokenizeLoop maxTokens fuel rest count tokens := by
  rw [tokenizeLoop, if_pos ⟨hsolid.1, hcount⟩]
  simp only [skipWhitespace_solid hsolid, if_neg hsolid.1, hscan]

theorem tokenizeLoop_token {tok' : Token} (hsolid : Solid s) (hcount : count < maxTokens)
    (hscan : scanToken s (tokens.getD count errorToken) = (some tok', rest)) (htype : tok'.type ≠ .tokError) :
    tokenizeLoop maxTokens (fuel + 1) s count tokens =
      tokenizeLoop maxTokens fuel rest (count + 1) (tokens.set count tok') := by
  rw [tokenizeLoop, if_pos ⟨hsolid.1, hcount⟩]
  simp only [skipWhitespace_solid hsolid, if_neg hsolid.1, hscan, if_neg htype]

theorem tokenizeLoop_gap {g : Gap} (hg : g.Valid) (hcount : count < maxTokens)
    (hfuel : (g.render ++ s).length < fuel) :
    ∃ fuel', s.length < fuel' ∧ tokenizeLoop maxTokens fuel (g.render ++ s) count tokens =
      tokenizeLoop maxTokens fuel' s count tokens := by
  cases g with
  | white c =>
    obtain ⟨fuel, rfl⟩ : ∃ f, fuel = f + 1 := ⟨fuel - 1, by omega⟩
    refine ⟨fuel + 1, ?_, tokenizeLoop_white hg⟩
    simp [Gap.render] at hfuel
    omega
  | block text =>
    have hopen : (cstring "/*").length = 2 := by decide
    simp only [Gap.render, length_append, hopen] at hfuel
    obtain ⟨fuel, rfl⟩ : ∃ f, fuel = f + 1 := ⟨fuel - 1, by omega⟩
    refine ⟨fuel, by omega, ?_⟩
    have hscan : ∀ tok, scanToken ((Gap.block text).render ++ s) tok = (none, s) := by
      intro tok
      change (none, skipBlockComment (text ++ cstring "*/" ++ s)) = _
      rw [skipBlockComment_block hg.1 hg.2]
    exact tokenizeLoop_comment (by decide : Solid (cstring "/*")) hcount hscan
  | line text =>
    have hopen : (cstring "//").length = 2 := by decide
    simp only [Gap.render, length_append, hopen] at hfuel
    -- one turn for the comment, and the end of the line is white space of the next
    obtain ⟨fuel, rfl⟩ : ∃ f, fuel = f + 2 := ⟨fuel - 2, by omega⟩
    refine ⟨fuel + 1, by omega, ?_⟩
    have hscan : ∀ tok, scanToken ((Gap.line text).render ++ s) tok = (none, ch '\n' :: s) := by
      intro tok
      change (none, skipLineComment (cstring "//" ++ text ++ cstring "\n" ++ s)) = _
      rw [skipLineComment_line hg.1 hg.2]
    have hstart : Solid ((Gap.line text).render ++ s) := (by decide : Solid (cstring "//"))
    rw [tokenizeLoop_comment hstart hcount hscan]
    exact tokenizeLoop_white (by decide)

theorem tokenizeLoop_gaps (tokens : List Token) {gaps : List Gap} (hgaps : ∀ g ∈ gaps, g.Valid)
    (hcount : count < maxTokens)
    (hfuel : (gaps.flatMap Gap.render ++ s).length < fuel) : ∃ fuel', s.length < fuel' ∧
      tokenizeLoop maxTokens fuel (gaps.flatMap Gap.render ++ s) count tokens =
        tokenizeLoop maxTokens fuel' s count tokens := by
  induction gaps generalizing fuel with
  | nil => exact ⟨fuel, hfuel, rfl⟩
  | cons g gaps ih =>
    rw [forall_mem_cons] at hgaps
    rw [flatMap_cons, append_assoc] at hfuel ⊢
    obtain ⟨fuel₁, hfuel₁, heq₁⟩ := tokenizeLoop_gap hgaps.1 hcount hfuel
    obtain ⟨fuel₂, hfuel₂, heq₂⟩ := ih hgaps.2 hfuel₁
    exact ⟨fuel₂, hfuel₂, heq₁.trans heq₂⟩

variable (count tokens)

theorem tokenizeLoop_piece {p : Piece} (hp : p.Valid) (hcount : count + 1 < maxTokens)
    (hfuel : (p.render ++ s).length < fuel) : ∃ fuel' tok', s.length < fuel' ∧ tok'.lexeme = p.lexeme ∧
      tokenizeLoop maxTokens fuel (p.render ++ s) count tokens =
        tokenizeLoop maxTokens fuel' s (count + 1) (tokens.set count tok') := by
  obtain ⟨hsolid, hscan⟩ := hp.lexeme.scans
  have hne : p.lexeme.render ≠ [] := by
    intro h
    rw [h] at hsolid
    exact hsolid.1 rfl
  have hsplit : p.render ++ s =
      p.lexeme.render ++ p.white :: (p.gaps.flatMap Gap.render ++ s) := by
    simp [Piece.render]
  rw [hsplit] at hfuel ⊢
  obtain ⟨tok', hscan, hlexeme, htype⟩ :=
    hscan p.white (p.gaps.flatMap Gap.render ++ s) (tokens.getD count errorToken) hp.white
  rw [length_append, length_cons] at hfuel
  obtain ⟨fuel, rfl⟩ : ∃ f, fuel = f + 2 := ⟨fuel - 2, by omega⟩
  have hrest : (p.gaps.flatMap Gap.render ++ s).length < fuel + 1 := by omega
  obtain ⟨fuel', hfuel', heq⟩ := tokenizeLoop_gaps (tokens.set count tok') hp.gaps hcount hrest
  refine ⟨fuel', tok', hfuel', hlexeme, ?_⟩
  have hstart : Solid (p.lexeme.render ++ p.white :: (p.gaps.flatMap Gap.render ++ s)) := by
    rw [Solid, peek_append hne]
    exact hsolid
  rw [tokenizeLoop_token hstart (by omega) hscan htype, tokenizeLoop_white hp.white, heq]

theorem tokenizeLoop_pieces {pieces : List Piece} (hpieces : ∀ p ∈ pieces, p.Valid)
    (hcount : count + pieces.length < maxTokens) (hroom : maxTokens ≤ tokens.length)
    (hfuel : (renderPieces pieces).length < fuel) :
    ∃ out, tokenizeLoop maxTokens fuel (renderPieces pieces) count tokens =
        (count + pieces.length, out) ∧ out.length = tokens.length ∧
      (out.take (count + pieces.length)).map Token.lexeme =
        (tokens.take count).map Token.lexeme ++ pieces.map Piece.lexeme := by
  induction pieces generalizing fuel count tokens with
  | nil => exact ⟨tokens, tokenizeLoop_stop rfl, rfl, by simp⟩
  | cons p pieces ih =>
    rw [forall_mem_cons] at hpieces
    rw [length_cons] at hcount
    have hnext : count + 1 < maxTokens := by omega
    obtain ⟨fuel', tok', hfuel', hlexeme, hpiece⟩ :=
      tokenizeLoop_piece (s := renderPieces pieces) count tokens hpieces.1 hnext hfuel
    obtain ⟨out, hrun, hlength, hmap⟩ := ih (count + 1) (tokens.set count tok') hpieces.2 (by omega)
      (by simpa using hroom) hfuel'
    have hcons : count + 1 + pieces.length = count + (p :: pieces).length := by
      rw [length_cons]
      omega
    have hslot : (tokens.set count tok').take (count + 1) = tokens.take count ++ [tok'] := by
      have hlt : count < (tokens.set count tok').length := by
        rw [length_set]
        omega
      rw [take_succ_eq_append_getElem hlt, getElem_set_self, take_set_of_le le_rfl]
    refine ⟨out, ?_, by rw [hlength, length_set], ?_⟩
    · rw [← hcons, ← hrun]
      exact hpiece
    · rw [← hcons, hmap, hslot, map_append, map_cons, map_nil, hlexeme, map_cons, append_assoc]
      rfl

end Loop

/-- The lexer returns the tokens that the text was written from, and `TOK_EOF` behind them. -/
theorem tokenizeCCode_renderPieces (pieces : List Piece) (tokens : List Token) (maxTokens : Nat)
    (hpieces : ∀ p ∈ pieces, p.Valid) (hcount : pieces.length < maxTokens)
    (hroom : maxTokens ≤ tokens.length) :
    let r := tokenizeCCode (renderPieces pieces) tokens maxTokens
    r.1 = pieces.length + 1 ∧
      (r.2.take r.1).map Token.lexeme = pieces.map Piece.lexeme ++ [.symbol .tokEof] := by
  obtain ⟨out, hrun, hlength, hmap⟩ :=
    tokenizeLoop_pieces 0 tokens hpieces (by omega) hroom (Nat.lt_succ_self _)
  rw [Nat.zero_add] at hrun hmap
  intro r
  have hr : r = (pieces.length + 1,
      out.modify pieces.length fun tok => { tok with type := .tokEof }) := by
    change tokenizeCCode _ _ _ = _
    rw [tokenizeCCode, hrun]
    exact if_pos hcount
  rw [hr]
  refine ⟨rfl, ?_⟩
  have hlt : pieces.length < out.length := by omega
  have hshort : (out.take pieces.length).length ≤ pieces.length := length_take_le _ _
  rw [modify_eq_take_cons_drop hlt, take_append, take_of_length_le (by omega),
    length_take_of_le (by omega), map_append, hmap]
  simp [Token.lexeme]

/-- An operator of two characters, a keyword, a name, a number and a string, with both comments. -/
theorem tokenizeCCode_renderPieces_line :
    let pieces : List Piece :=
      [⟨.symbol .tokInt, ch ' ', [.block (cstring "type*")]⟩, ⟨.ident (cstring "x1"), ch ' ', []⟩,
        ⟨.symbol .tokSlasheq, ch '\n', [.line (cstring "/*"), .white (ch '\t')]⟩,
        ⟨.number 2147483647, ch ' ', []⟩, ⟨.string (cstring "a\\\"/*"), ch ' ', []⟩]
    let r := tokenizeCCode (renderPieces pieces) (List.replicate 6 errorToken) 6
    r.1 = 6 ∧ (r.2.take r.1).map Token.lexeme = pieces.map Piece.lexeme ++ [.symbol .tokEof] := by
  exact tokenizeCCode_renderPieces _ _ 6 (by decide) (by decide) (by decide)

end JexOs.Tcc
