import JexOs.TccExpr

/-!
# The lexer

`tokenize_c_code` of `src/bin/tcc.c`. A scanning position is the list of characters from it on, and
behind the end of the source stands its terminator. `kmalloc` is taken to succeed.
-/

namespace JexOs.Tcc

open X86 (Byte)

def ch (c : Char) : Byte := BitVec.ofNat 8 c.toNat

/-- `source[pos]`. -/
def peek (s : CString) : Byte := s.headD 0

def keywords : List (CString × TokenType) :=
  [(cstring "int", .tokInt), (cstring "char", .tokChar), (cstring "void", .tokVoid),
    (cstring "return", .tokReturn), (cstring "if", .tokIf), (cstring "else", .tokElse),
    (cstring "while", .tokWhile), (cstring "for", .tokFor)]

def lookupKeyword (str : CString) : TokenType :=
  match keywords.find? fun k => k.1 = str with
  | some k => k.2
  | none => .tokIdent

def isWhitespace (c : Byte) : Bool := c = ch ' ' ∨ c = ch '\t' ∨ c = ch '\n' ∨ c = ch '\r'

def isDigit (c : Byte) : Bool := ch '0' ≤ c ∧ c ≤ ch '9'

def isAlpha (c : Byte) : Bool :=
  (ch 'a' ≤ c ∧ c ≤ ch 'z') ∨ (ch 'A' ≤ c ∧ c ≤ ch 'Z') ∨ c = ch '_'

/-! ### Operators -/

/-- A case of the switch: its character, the tokens that a second character makes of it, and the token
it is alone. -/
structure OperatorCase where
  first : Byte
  pairs : List (Byte × TokenType)
  alone : TokenType

/-- The comments of the case of `/` are in `scanToken`. -/
def operatorCases : List OperatorCase :=
  [⟨ch '+', [(ch '+', .tokPlusplus), (ch '=', .tokPluseq)], .tokPlus⟩,
    ⟨ch '-', [(ch '-', .tokMinusminus), (ch '=', .tokMinuseq)], .tokMinus⟩,
    ⟨ch '*', [(ch '=', .tokStareq)], .tokStar⟩,
    ⟨ch '/', [(ch '=', .tokSlasheq)], .tokSlash⟩,
    ⟨ch '%', [(ch '=', .tokPercenteq)], .tokPercent⟩,
    ⟨ch '=', [(ch '=', .tokEq)], .tokAssign⟩,
    ⟨ch '!', [(ch '=', .tokNeq)], .tokLognot⟩,
    ⟨ch '<', [(ch '<', .tokShl), (ch '=', .tokLe)], .tokLt⟩,
    ⟨ch '>', [(ch '>', .tokShr), (ch '=', .tokGe)], .tokGt⟩,
    ⟨ch ';', [], .tokSemicolon⟩, ⟨ch ',', [], .tokComma⟩,
    ⟨ch '(', [], .tokLparen⟩, ⟨ch ')', [], .tokRparen⟩,
    ⟨ch '\x7b', [], .tokLbrace⟩, ⟨ch '\x7d', [], .tokRbrace⟩,
    ⟨ch '[', [], .tokLbracket⟩, ⟨ch ']', [], .tokRbracket⟩,
    ⟨ch '&', [(ch '&', .tokLogand)], .tokAnd⟩,
    ⟨ch '|', [(ch '|', .tokLogor)], .tokError⟩,
    ⟨ch '~', [], .tokNot⟩]

/-- The token that starts with `c` when `next` is behind it, and its number of characters. -/
def OperatorCase.scan (k : OperatorCase) (next : Byte) : TokenType × Nat :=
  match k.pairs.find? fun p => p.1 = next with
  | some p => (p.2, 2)
  | none => (k.alone, 1)

/-- The switch over `source[pos]`, up to its default. -/
def scanOperator (c next : Byte) : Option (TokenType × Nat) :=
  (operatorCases.find? fun k => k.first = c).map fun k => k.scan next

/-! ### Comments, numbers, strings and names -/

def skipWhitespace (s : CString) : CString := s.dropWhile isWhitespace

def skipLineComment (s : CString) : CString := s.dropWhile fun c => c ≠ 0 ∧ c ≠ ch '\n'

/-- From behind the opening of the comment to behind its end. -/
def skipBlockComment : CString → CString
  | [] => []
  | c :: s =>
    if c = 0 then c :: s
    else if c = ch '*' ∧ peek s = ch '/' then s.drop 1
    else skipBlockComment s

/-- The value of the digits read, and what is behind them. A value above `INT_MAX / 10` takes no more
digits; one digit below that the product can still overflow. -/
def scanDigits (val : Int) : CString → Int × CString
  | [] => (val, [])
  | c :: s =>
    if isDigit c then
      if val > 214748364 then (val, c :: s)
      else scanDigits ((val * 10 + (c.toNat - 48)).bmod (2 ^ 32)) s
    else (val, c :: s)

def scanNumber (s : CString) : Int × CString :=
  let r := scanDigits 0 s
  (r.1, r.2.dropWhile isDigit)

def unescape (c : Byte) : Byte :=
  if c = ch 'n' then ch '\n' else if c = ch 't' then ch '\t' else if c = ch 'r' then ch '\r' else c

/-- The characters of a string literal while `str_val` has room for `room` of them. -/
def scanChars : Nat → CString → CString × CString
  | 0, s => ([], s)
  | room + 1, s =>
    if peek s = ch '"' ∨ peek s = 0 then ([], s)
    else if peek s = ch '\\' ∧ peek (s.drop 1) ≠ 0 then
      let r := scanChars room (s.drop 2)
      (unescape (peek (s.drop 1)) :: r.1, r.2)
    else
      let r := scanChars room (s.drop 1)
      (peek s :: r.1, r.2)

/-- From behind the opening quote. -/
def scanString (s : CString) : CString × CString :=
  let r := scanChars 1023 s
  (r.1, if peek r.2 = ch '"' then r.2.drop 1 else r.2)

def scanIdent (s : CString) : CString × CString :=
  let inside c := isAlpha c || isDigit c
  ((s.takeWhile inside).take 255, s.dropWhile inside)

/-! ### The loop -/

/-- One turn of the loop from a character that is neither white nor the terminator: what it makes of
the slot `tok`, if it comes to a token, and where it goes on. -/
def scanToken (s : CString) (tok : Token) : Option Token × CString :=
  if peek s = ch '/' ∧ peek (s.drop 1) = ch '/' then (none, skipLineComment s)
  else if peek s = ch '/' ∧ peek (s.drop 1) = ch '*' then (none, skipBlockComment (s.drop 2))
  else
    match scanOperator (peek s) (peek (s.drop 1)) with
    | some (type, n) => (some { tok with type := type }, s.drop n)
    | none =>
      if isDigit (peek s) then
        let r := scanNumber s
        (some { tok with type := .tokNumber, intVal := r.1 }, r.2)
      else if peek s = ch '"' then
        let r := scanString (s.drop 1)
        (some { tok with type := .tokString, str := r.1 }, r.2)
      else if isAlpha (peek s) then
        let r := scanIdent s
        let type := lookupKeyword r.1
        (some (if type = .tokIdent then { tok with type := type, str := r.1 }
          else { tok with type := type }), r.2)
      else (some { tok with type := .tokError }, s.drop 1)

def errorToken : Token :=
  { type := .tokError
    str := []
    intVal := 0 }

/-- The result is `token_count` and the array. Every turn reads a character, so the length of the
source is fuel enough. -/
def tokenizeLoop (maxTokens : Nat) : Nat → CString → Nat → List Token → Nat × List Token
  | 0, _, count, tokens => (count, tokens)
  | fuel + 1, s, count, tokens =>
    if peek s ≠ 0 ∧ count < maxTokens then
      let s := skipWhitespace s
      if peek s = 0 then (count, tokens)
      else
        match scanToken s (tokens.getD count errorToken) with
        | (none, rest) => tokenizeLoop maxTokens fuel rest count tokens
        | (some tok, rest) =>
          tokenizeLoop maxTokens fuel rest (if tok.type = .tokError then count else count + 1)
            (tokens.set count tok)
    else (count, tokens)

/-- `tokens` is the array as the caller allocated it. -/
def tokenizeCCode (source : CString) (tokens : List Token) (maxTokens : Nat) : Nat × List Token :=
  let r := tokenizeLoop maxTokens (source.length + 1) source 0 tokens
  if r.1 < maxTokens then (r.1 + 1, r.2.modify r.1 fun tok => { tok with type := .tokEof }) else r

end JexOs.Tcc
