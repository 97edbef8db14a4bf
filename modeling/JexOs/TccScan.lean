import JexOs.TccLexer

/-!
# The lexer, character by character

`tokenize_c_code` once more, with `pos` as an index into the source: a read behind the terminator, a sum
that leaves the range of `int`, and a loop that does not end are faults. The positions of `TccLexer` are
the characters that are left.
-/

namespace JexOs.Tcc

open X86 (Byte)

/-- What the lexer must not do. -/
inductive Fault where
  | outside
  | overflow
  | endless
deriving DecidableEq, Repr

/-- `source[pos]`, up to the terminator. -/
def charAt (source : CString) (pos : Nat) : Except Fault Byte :=
  match (source ++ [0])[pos]? with
  | some c => .ok c
  | none => .error .outside

def intMax : Nat := 2147483647

section Loops

variable (source : CString)

/-- A loop `while (p(source[pos])) pos++`, with the characters that it passes. -/
def takeWhileAt (p : Byte → Bool) : (fuel pos : Nat) → Except Fault (CString × Nat)
  | 0, _ => .error .endless
  | fuel + 1, pos => do
      let c ← charAt source pos
      if p c then
        let r ← takeWhileAt p fuel (pos + 1)
        pure (c :: r.1, r.2)
      else pure ([], pos)

/-- From behind the opening of a comment to behind its end. -/
def skipBlockCommentAt : (fuel pos : Nat) → Except Fault Nat
  | 0, _ => .error .endless
  | fuel + 1, pos => do
      let c ← charAt source pos
      if c = 0 then pure pos
      else if c = ch '*' then
        let d ← charAt source (pos + 1)
        if d = ch '/' then pure (pos + 2) else skipBlockCommentAt fuel (pos + 1)
      else skipBlockCommentAt fuel (pos + 1)

/-- The value of the digits, up to the test in front of the multiplication. -/
def scanDigitsAt : (fuel : Nat) → (val : Nat) → (pos : Nat) → Except Fault (Nat × Nat)
  | 0, _, _ => .error .endless
  | fuel + 1, val, pos => do
      let c ← charAt source pos
      if isDigit c then
        if val > 214748364 then pure (val, pos)
        else
          let next := val * 10 + (c.toNat - 48)
          if next > intMax then .error .overflow else scanDigitsAt fuel next (pos + 1)
      else pure (val, pos)

/-- The characters of a string literal while `str_val` has room for `room` of them. -/
def scanCharsAt : (room pos : Nat) → Except Fault (CString × Nat)
  | 0, pos => do
      let _ ← charAt source pos
      pure ([], pos)
  | room + 1, pos => do
      let c ← charAt source pos
      if c = ch '"' ∨ c = 0 then pure ([], pos)
      else if c = ch '\\' then
        let d ← charAt source (pos + 1)
        if d ≠ 0 then
          let r ← scanCharsAt room (pos + 2)
          pure (unescape d :: r.1, r.2)
        else
          let r ← scanCharsAt room (pos + 1)
          pure (c :: r.1, r.2)
      else
        let r ← scanCharsAt room (pos + 1)
        pure (c :: r.1, r.2)

/-- From the opening quote. -/
def scanStringAt (pos : Nat) : Except Fault (CString × Nat) := do
  let r ← scanCharsAt source 1023 (pos + 1)
  let c ← charAt source r.2
  pure (r.1, if c = ch '"' then r.2 + 1 else r.2)

def scanNumberAt (fuel pos : Nat) : Except Fault (Nat × Nat) := do
  let r ← scanDigitsAt source fuel 0 pos
  let rest ← takeWhileAt source isDigit fuel r.2
  pure (r.1, rest.2)

/-- One turn of the loop from a character that is neither white nor the terminator. Only the operators
of two characters look at the next one. -/
def scanTokenAt (fuel pos : Nat) (tok : Token) : Except Fault (Option Token × Nat) := do
  let c ← charAt source pos
  match operatorCases.find? fun k => k.first = c with
  | some k =>
    if k.pairs = [] then pure (some { tok with type := k.alone }, pos + 1)
    else
      let d ← charAt source (pos + 1)
      if c = ch '/' ∧ d = ch '/' then
        let r ← takeWhileAt source (fun c => c ≠ 0 ∧ c ≠ ch '\n') fuel pos
        pure (none, r.2)
      else if c = ch '/' ∧ d = ch '*' then
        let next ← skipBlockCommentAt source fuel (pos + 2)
        pure (none, next)
      else
        let r := k.scan d
        pure (some { tok with type := r.1 }, pos + r.2)
  | none =>
    if isDigit c then
      let r ← scanNumberAt source fuel pos
      pure (some { tok with type := .tokNumber, intVal := r.1 }, r.2)
    else if c = ch '"' then
      let r ← scanStringAt source pos
      pure (some { tok with type := .tokString, str := r.1 }, r.2)
    else if isAlpha c then
      let r ← takeWhileAt source (fun c => isAlpha c || isDigit c) fuel pos
      let ident := r.1.take 255
      let type := lookupKeyword ident
      pure (some (if type = .tokIdent then { tok with type := type, str := ident }
        else { tok with type := type }), r.2)
    else pure (some { tok with type := .tokError }, pos + 1)

/-- The loop over the source; every loop within it has the fuel `inner`. -/
def tokenizeLoopAt (inner maxTokens : Nat) : (fuel pos count : Nat) → (tokens : List Token) →
    Except Fault (Nat × List Token)
  | 0, _, _, _ => .error .endless
  | fuel + 1, pos, count, tokens => do
      let c ← charAt source pos
      if c ≠ 0 ∧ count < maxTokens then
        let white ← takeWhileAt source isWhitespace inner pos
        let c ← charAt source white.2
        if c = 0 then pure (count, tokens)
        else
          let r ← scanTokenAt source inner white.2 (tokens.getD count errorToken)
          match r with
          | (none, pos) => tokenizeLoopAt inner maxTokens fuel pos count tokens
          | (some tok, pos) =>
            tokenizeLoopAt inner maxTokens fuel pos
              (if tok.type = .tokError then count else count + 1) (tokens.set count tok)
      else pure (count, tokens)

end Loops

/-- `tokenize_c_code`, where every loop has the same fuel. -/
def tokenizeAt (fuel : Nat) (source : CString) (tokens : List Token) (maxTokens : Nat) :
    Except Fault (Nat × List Token) := do
  let r ← tokenizeLoopAt source fuel maxTokens fuel 0 0 tokens
  pure (if r.1 < maxTokens then (r.1 + 1, r.2.modify r.1 fun tok => { tok with type := .tokEof }) else r)

end JexOs.Tcc
