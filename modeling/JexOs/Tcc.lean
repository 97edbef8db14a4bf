import JexOs.TccLexer

/-!
# The compiler

`parse_c_tokens` of `src/bin/tcc.c`: one pass over the token array that emits code statement by
statement, and back-patches jumps, the size of the frame and the addresses of strings. As in the
parser of expressions, reading behind the array has no result, and neither has running out of fuel.
The hex dump of the code is left out.
-/

namespace JexOs.Tcc

open X86 (Byte Word wordBytes)

/-! ### State -/

/-- `ctrl_type`. -/
inductive CtrlType where
  | none | ifThen | whileLoop | forLoop
deriving DecidableEq, Repr

/-- The construct whose body is open. There is one such slot: bodies do not nest. -/
structure Ctrl where
  type : CtrlType
  elseState : Nat
  outerDepth : Int
  jzPatch : Nat
  jmpPatch : Nat
  loopTop : Nat
  incPos : Nat
  emptyCond : Bool
deriving DecidableEq, Repr

/-- The local variables of `parse_c_tokens`. The token index `i` is `gen.pos`, and the output up to
`pos` is `gen.out`; `stringTable` holds the bytes up to `string_pos`. -/
structure Parser where
  gen : Gen
  symtab : Symtab
  nextOffset : Int
  totalLocalSize : Nat
  stringTable : CString
  printPatches : List Nat
  exitCode : Word
  ctrl : Ctrl
  braceDepth : Int
deriving DecidableEq, Repr

namespace Parser

def emit (s : Parser) (bytes : List Byte) : Parser := { s with gen := s.gen.emit bytes }

def goto (s : Parser) (i : Nat) : Parser := { s with gen := { s.gen with pos := i } }

def skip (s : Parser) (n : Nat) : Parser := s.goto (s.gen.pos + n)

end Parser

/-- `*(uint32_t*)(output + p) = v`. -/
def patch32 (out : List Byte) (p : Nat) (v : Word) : List Byte :=
  out.take p ++ wordBytes v ++ out.drop (p + 4)

def Parser.patch (s : Parser) (p : Nat) (v : Word) : Parser :=
  { s with gen := { s.gen with out := patch32 s.gen.out p v } }

/-- The displacement of a jump to `target` whose next instruction is at `origin`. -/
def relative (target origin : Nat) : Word := BitVec.ofNat 32 target - BitVec.ofNat 32 origin

/-! ### Tokens -/

def typeAt (tokens : List Token) (i : Nat) : Option TokenType := tokens[i]?.map Token.type

/-- `while (tokens[i].type != ... && tokens[i].type != TOK_EOF) i++`. -/
def skipTo (tokens : List Token) (stops : List TokenType) (i : Nat) : Option Nat :=
  ((tokens.drop i).findIdx? fun t => decide (t.type ∈ stops ∨ t.type = .tokEof)).map (i + ·)

/-- The next tokens have these types. -/
def matchTypes (tokens : List Token) : (i : Nat) → List TokenType → Option Bool
  | _, [] => some true
  | i, type :: types => do
      if (← typeAt tokens i) = type then matchTypes tokens (i + 1) types else some false

/-- `if (tokens[i].type == type) i++`. -/
def skipIf (tokens : List Token) (type : TokenType) (i : Nat) : Option Nat := do
  some (if (← typeAt tokens i) = type then i + 1 else i)

/-- To the next semicolon, and behind it. -/
def skipStatement (tokens : List Token) (i : Nat) : Option Nat := do
  skipIf tokens .tokSemicolon (← skipTo tokens [.tokSemicolon] i)

/-- `expr_parse` at token `p`: whether it succeeds, and where it stops. The index `i` is left alone. -/
def parseAt (tokens : List Token) (fuel : Nat) (s : Parser) (p : Nat) : Option (Bool × Nat × Parser) := do
  let (r, g) ← exprParse tokens s.symtab fuel { s.gen with pos := p }
  some (decide (0 ≤ r), g.pos, { s with gen := { g with pos := s.gen.pos } })

/-! ### Emitting -/

def emitMovEbxImm (imm : Word) : List Byte := 0xBB :: wordBytes imm

/-- `mov ebx, [ebp+offset]`. -/
def emitMovEbxMemEbp (offset : Int) : List Byte :=
  if offset < -128 ∨ offset > 127 then 0x8B :: 0x9D :: wordBytes (BitVec.ofInt 32 offset)
  else [0x8B, 0x5D, BitVec.ofInt 8 offset]

def emitInt80 : List Byte := [0xCD, 0x80]

/-- `mov eax, number` and `int 0x80`. -/
def emitSyscall (number : Word) : List Byte := emitMovEaxImm number ++ emitInt80

/-! ### Functions and `print` -/

/-- `int main() {` and the like: the index behind it. -/
def functionHead (tokens : List Token) (i : Nat) : Option (Option Nat) := do
  let type ← typeAt tokens i
  if type = .tokInt ∨ type = .tokChar ∨ type = .tokVoid then
    let j := if (← typeAt tokens (i + 1)) = .tokStar then i + 2 else i + 1
    if (← typeAt tokens j) = .tokIdent then
      if (← typeAt tokens (j + 1)) = .tokLparen then
        let k ← skipTo tokens [.tokRparen] (j + 2)
        let k ← skipIf tokens .tokRparen k
        some (some (← skipIf tokens .tokLbrace k))
      else some none
    else some none
  else some none

/-- A literal goes to the string table, with code that prints it; a full table drops it. The address
is patched later, for the first 64 of them. -/
def emitPrint (s : Parser) (text : CString) : Parser :=
  if s.stringTable.length + text.length + 1 ≤ 1024 then
    { s with
      gen := s.gen.emit (emitMovEaxImm 0 ++
        emitMovEbxImm (BitVec.ofNat 32 s.stringTable.length) ++ emitInt80)
      stringTable := s.stringTable ++ text ++ [0]
      printPatches :=
        if s.printPatches.length < 64 then s.printPatches ++ [s.gen.out.length + 5]
        else s.printPatches }
  else s

/-- The literal text in front of a specifier or at the end of the format. -/
def emitLiteral (s : Parser) (text : CString) : Parser := if text = [] then s else emitPrint s text

/-- The token of argument `n`, from the first argument at `p` on. -/
def locateArg (tokens : List Token) : (n p : Nat) → Option Nat
  | 0, p => some p
  | n + 1, p => do
      let p ← skipTo tokens [.tokComma, .tokRparen] p
      locateArg tokens n (← skipIf tokens .tokComma p)

/-- The value of a variable in `ebx`, 0 for an unknown one. -/
def emitVariableArg (tab : Symtab) (name : CString) : List Byte :=
  match symtabLookup tab name with
  | some sym => emitMovEbxMemEbp sym.offset
  | none => emitMovEbxImm 0

def emitArg (tab : Symtab) (tok : Token) : List Byte :=
  match tok.type with
  | .tokNumber => emitMovEbxImm (BitVec.ofInt 32 tok.intVal)
  | .tokIdent => emitVariableArg tab tok.str
  | _ => emitMovEbxImm 0

/-- The system call of a specifier that takes a value. -/
def specifierCall (spec : Byte) : Option Word :=
  if spec = ch 'd' ∨ spec = ch 'i' then some 11
  else if spec = ch 'x' ∨ spec = ch 'X' then some 18
  else if spec = ch 'c' then some 12
  else none

def emitStringArg (s : Parser) (tok : Token) : Parser :=
  match tok.type with
  | .tokString => emitPrint s tok.str
  | .tokIdent => s.emit (emitVariableArg s.symtab tok.str ++ emitSyscall 0)
  | _ => s

/-- The loop over the format. `text` is the format from `lit_start` to the current character; an
unknown specifier leaves `lit_start` where it is, so its text is printed again. -/
def formatLoop (tokens : List Token) (first : Nat) :
    (format : CString) → (argIdx : Nat) → (text : CString) → Parser → Option Parser
  | [], _, text, s => some (emitLiteral s text)
  | [c], _, text, s => some (emitLiteral s (text ++ [c]))
  | c :: spec :: rest, argIdx, text, s =>
    if c = ch '%' then
      let s := emitLiteral s text
      if spec = ch '%' then
        formatLoop tokens first rest argIdx []
          (s.emit (emitMovEaxImm 12 ++ emitMovEbxImm ((ch '%').setWidth 32) ++ emitInt80))
      else
        match specifierCall spec with
        | some number => do
            let tok ← tokens[← locateArg tokens argIdx first]?
            formatLoop tokens first rest (argIdx + 1) []
              (s.emit (emitArg s.symtab tok ++ emitSyscall number))
        | none =>
          if spec = ch 's' then do
            let tok ← tokens[← locateArg tokens argIdx first]?
            formatLoop tokens first rest (argIdx + 1) [] (emitStringArg s tok)
          else formatLoop tokens first (spec :: rest) argIdx (text ++ [c]) s
    else formatLoop tokens first (spec :: rest) argIdx (text ++ [c]) s

def parsePrint (tokens : List Token) (format : CString) (s : Parser) : Option Parser := do
  let i := s.gen.pos
  let s ← formatLoop tokens (i + 4) format 0 [] s
  some (s.goto (← skipStatement tokens (i + 3)))

def parseAsm (tokens : List Token) (s : Parser) : Option Parser := do
  let i := s.gen.pos
  let tok ← tokens[← skipTo tokens [.tokString] (i + 1)]?
  let s := if tok.type = .tokString ∧ cstring "int $0x80" <:+: tok.str then s.emit emitInt80 else s
  some (s.goto (← skipStatement tokens i))

/-! ### Variables -/

/-- `symtab_add` of a new local, whose result is ignored. -/
def Parser.declare (s : Parser) (name : CString) (type : SymType) : Option Parser := do
  let (_, tab) ← symtabAdd s.symtab name type s.nextOffset 1
  some { s with
    symtab := tab
    nextOffset := s.nextOffset - symTypeSize type
    totalLocalSize := s.totalLocalSize + symTypeSize type }

/-- The value of an initializer in `eax`. -/
def emitInitializer (tab : Symtab) (tok : Token) : List Byte :=
  match tok.type with
  | .tokNumber => emitMovEaxImm (BitVec.ofInt 32 tok.intVal)
  | .tokIdent =>
    match symtabLookup tab tok.str with
    | some src => emitMovEaxMemEbp src.offset
    | none => emitMovEaxImm 0
  | _ => emitMovEaxImm 0

/-- A name in a declaration at index `j`, with its initializer: one token, stored as a word. -/
def declareName (tokens : List Token) (type : SymType) (name : CString) (j : Nat) (s : Parser) :
    Option (Nat × Parser) := do
  let offset := s.nextOffset
  let s ← s.declare name type
  if (← typeAt tokens (j + 1)) = .tokAssign then
    let tok ← tokens[j + 2]?
    some (j + 2, s.emit (emitInitializer s.symtab tok ++ emitMovMemEbpEax offset))
  else some (j, s)

def declareLoop (tokens : List Token) (type : SymType) : (fuel j : Nat) → Parser → Option Parser
  | 0, _, _ => none
  | fuel + 1, j, s => do
      let tok ← tokens[j]?
      if tok.type = .tokSemicolon ∨ tok.type = .tokEof then some s
      else
        let (j, s) ← if tok.type = .tokIdent then declareName tokens type tok.str j s else some (j, s)
        declareLoop tokens type fuel (← skipIf tokens .tokComma (j + 1)) s

def parseDeclaration (tokens : List Token) (fuel : Nat) (type : SymType) (s : Parser) : Option Parser := do
  let i := s.gen.pos
  let s ← declareLoop tokens type fuel (i + 1) s
  some (s.goto (← skipStatement tokens i))

/-- The operation of a compound assignment, with the right side in `ebx`. -/
def emitCompound : TokenType → Option (List Byte)
  | .tokPluseq => some [0x01, 0xD8]
  | .tokMinuseq => some [0x29, 0xD8]
  | .tokStareq => some [0x0F, 0xAF, 0xC3]
  | .tokSlasheq => some [0x99, 0xF7, 0xFB]
  | .tokPercenteq => some [0x99, 0xF7, 0xFB, 0x89, 0xD0]
  | _ => none

def parseCompound (tokens : List Token) (fuel : Nat) (name : CString) (op : List Byte) (s : Parser) :
    Option Parser := do
  match symtabLookup s.symtab name with
  | none => some (s.skip 1)
  | some sym =>
    let (done, p, s) ← parseAt tokens fuel s (s.gen.pos + 2)
    if done then
      let s := s.emit (emitPushEax ++ emitMovEaxMemEbp sym.offset ++ emitPopEbx ++ op ++
        emitMovMemEbpEax sym.offset)
      some (s.goto (← skipStatement tokens p))
    else some (s.skip 1)

/-- A name that is assigned to, declared as an `int` when it is new. -/
def lookupOrDeclare (s : Parser) (name : CString) : Option (Option Symbol × Parser) :=
  match symtabLookup s.symtab name with
  | some sym => some (some sym, s)
  | none => do
      let s ← s.declare name .int
      some (symtabLookup s.symtab name, s)

def parseAssignment (tokens : List Token) (fuel : Nat) (name : CString) (s : Parser) : Option Parser := do
  let i := s.gen.pos
  let (sym, s) ← lookupOrDeclare s name
  match sym with
  | none => some (s.goto (← skipStatement tokens i))
  | some sym =>
    let rhs ← tokens[i + 2]?
    let called ← if rhs.type = .tokIdent then
        (typeAt tokens (i + 3)).map fun type => decide (type = .tokLparen)
      else some false
    if called then
      if rhs.str = cstring "getpid" ∧ (← typeAt tokens (i + 4)) = .tokRparen then
        let s := s.emit (emitSyscall 15 ++ emitMovMemEbpEax sym.offset)
        some (s.goto (← skipIf tokens .tokSemicolon (i + 5)))
      else some (s.goto (← skipStatement tokens (i + 2)))
    else
      let (done, p, s) ← parseAt tokens fuel s (i + 2)
      if done then
        some ((s.emit (emitMovMemEbpEax sym.offset)).goto (← skipStatement tokens p))
      else some (s.goto (← skipStatement tokens i))

/-- `getpid();`, `exit(n);`, and calls of anything else, which are skipped. -/
def parseCall (tokens : List Token) (name : CString) (s : Parser) : Option Parser := do
  let i := s.gen.pos
  let arg ← tokens[i + 2]?
  if name = cstring "getpid" ∧ arg.type = .tokRparen then
    some ((s.emit (emitSyscall 15)).goto (← skipIf tokens .tokSemicolon (i + 3)))
  else
    let exits ← if name = cstring "exit" then matchTypes tokens (i + 2) [.tokNumber, .tokRparen]
      else some false
    if exits then
      let s := s.emit (emitMovEbxImm (BitVec.ofInt 32 arg.intVal) ++ emitSyscall 1)
      some (s.goto (← skipIf tokens .tokSemicolon (i + 4)))
    else some (s.goto (← skipStatement tokens (i + 1)))

/-! ### Control flow -/

/-- The jump back at the end of a loop. -/
def emitLoopJump (s : Parser) : Parser :=
  s.emit (0xE9 :: wordBytes (relative s.ctrl.loopTop (s.gen.out.length + 5)))

/-- `x++` or `x--` as the increment of a `for`. -/
def emitForStep (sym : Symbol) (step : TokenType) : List Byte :=
  let change : List Byte := if step = .tokPlusplus then [0x83, 0xC0, 0x01] else [0x83, 0xE8, 0x01]
  if sym.type = .char then
    emitMovsxEaxMem8Ebp sym.offset ++ change ++ emitMovMemEbpAl sym.offset
  else emitMovEaxMemEbp sym.offset ++ change ++ emitMovMemEbpEax sym.offset

/-- The increment of a `for`, whose tokens stand in front of the body: a step behind a name, or an
assignment. Anything else is dropped. -/
def parseForIncrement (tokens : List Token) (fuel : Nat) (s : Parser) : Option Parser := do
  let p := s.ctrl.incPos
  if p = 0 then some s
  else
    let tok ← tokens[p]?
    if tok.type ≠ .tokIdent then some s
    else
      let next ← typeAt tokens (p + 1)
      if next = .tokPlusplus ∨ next = .tokMinusminus then
        match symtabLookup s.symtab tok.str with
        | some sym => some (s.emit (emitForStep sym next))
        | none => some s
      else if next = .tokAssign then
        let (done, _, s) ← parseAt tokens fuel s (p + 2)
        match symtabLookup s.symtab tok.str with
        | some sym => some (if done then s.emit (emitMovMemEbpEax sym.offset) else s)
        | none => some s
      else some s

/-- The end of the first body of an `if`, with the jump over an `else` behind it. -/
def closeThen (tokens : List Token) (s : Parser) : Option Parser := do
  let s := s.patch (s.ctrl.jzPatch + 2) (relative s.gen.out.length (s.ctrl.jzPatch + 6))
  let i := s.gen.pos + 1
  if (← typeAt tokens i) = .tokElse then
    let s :=
      { s with
        ctrl :=
          { s.ctrl with
            elseState := 2
            jmpPatch := s.gen.out.length
            outerDepth := s.braceDepth } }.emit (0xE9 :: wordBytes 0)
    if (← typeAt tokens (i + 1)) = .tokLbrace then
      some ({ s with braceDepth := s.braceDepth + 1 }.goto (i + 2))
    else some (s.goto (i + 1))
  else
    some ({ s with
      ctrl := { s.ctrl with type := .none, elseState := 0 }
      braceDepth := s.braceDepth - 1 }.goto i)

def closeElse (s : Parser) : Parser :=
  let s :=
    if s.ctrl.jmpPatch ≠ 0 then
      s.patch (s.ctrl.jmpPatch + 1) (relative s.gen.out.length (s.ctrl.jmpPatch + 5))
    else s
  { s with
    ctrl := { s.ctrl with type := .none, elseState := 0, jmpPatch := 0 }
    braceDepth := s.braceDepth - 1 }.skip 1

def closeLoop (tokens : List Token) (fuel : Nat) (s : Parser) : Option Parser := do
  let s ← if s.ctrl.type = .forLoop then parseForIncrement tokens fuel s else some s
  let s := emitLoopJump s
  let s :=
    if s.ctrl.jzPatch ≠ 0 then
      s.patch (s.ctrl.jzPatch + 2) (relative s.gen.out.length (s.ctrl.jzPatch + 6))
    else s
  some ({ s with
    ctrl := { s.ctrl with type := .none }
    braceDepth := s.braceDepth - 1 }.skip 1)

def closeBrace (tokens : List Token) (fuel : Nat) (s : Parser) : Option Parser :=
  let inner := s.braceDepth = s.ctrl.outerDepth + 1
  if s.ctrl.type = .ifThen ∧ s.ctrl.elseState = 1 ∧ inner then closeThen tokens s
  else if s.ctrl.type = .ifThen ∧ s.ctrl.elseState = 2 ∧ inner then some (closeElse s)
  else if (s.ctrl.type = .whileLoop ∨ s.ctrl.type = .forLoop) ∧ inner then closeLoop tokens fuel s
  else some ({ s with braceDepth := s.braceDepth - 1 }.skip 1)

/-- The first clause of a `for`. A declaration in it is skipped. -/
def parseForInit (tokens : List Token) (fuel : Nat) (s : Parser) : Option Parser := do
  let i := s.gen.pos
  let tok ← tokens[i]?
  if tok.type = .tokSemicolon then some (s.skip 1)
  else if ← matchTypes tokens i [.tokIdent, .tokAssign] then
    let (sym, s) ← lookupOrDeclare s tok.str
    match sym with
    | some sym =>
      let (done, p, s) ← parseAt tokens fuel s (i + 2)
      let s := if done then s.emit (emitMovMemEbpEax sym.offset) else s
      some (s.goto (← skipIf tokens .tokSemicolon p))
    | none => some (s.goto (← skipIf tokens .tokSemicolon i))
  else some (s.goto (← skipStatement tokens i))

/-- The code of a condition and the jump behind the body. The flag is false where the statement is
given up. -/
def parseCondition (tokens : List Token) (fuel : Nat) (isFor : Bool)
    (s : Parser) : Option (Bool × Parser) := do
  let type ← typeAt tokens s.gen.pos
  if isFor ∧ (type = .tokSemicolon ∨ type = .tokRparen) then
    some (true, { s with ctrl := { s.ctrl with emptyCond := true } })
  else if ¬isFor ∧ type = .tokRparen then some (false, s)
  else
    let s := { s with ctrl := { s.ctrl with loopTop := s.gen.out.length } }
    let (done, p, s) ← parseAt tokens fuel s s.gen.pos
    if !done then some (false, s)
    else
      let s := if isFor then s else s.goto p
      if ¬isFor ∧ (← typeAt tokens s.gen.pos) ≠ .tokRparen then some (false, s)
      else
        let s := (if isFor then s else s.skip 1).emit [0x85, 0xC0]
        some (true, { s with ctrl := { s.ctrl with jzPatch := s.gen.out.length } }.emit
          (0x0F :: 0x84 :: wordBytes 0))

/-- From the condition of a `for` to behind its closing parenthesis. -/
def parseForClauses (tokens : List Token) (s : Parser) : Option Parser := do
  let i := s.gen.pos
  let i ← if s.ctrl.emptyCond then some i else skipTo tokens [.tokSemicolon, .tokRparen] i
  if (← typeAt tokens i) = .tokSemicolon then
    let s := { s with ctrl := { s.ctrl with incPos := i + 1 } }
    some (s.goto (← skipIf tokens .tokRparen (← skipTo tokens [.tokRparen] (i + 1))))
  else some (s.goto (← skipIf tokens .tokRparen i))

/-- The head of an `if`, a `while` or a `for`, whose body the main loop reads. -/
def parseControl (tokens : List Token) (fuel : Nat) (type : CtrlType) (s : Parser) : Option Parser := do
  let s := { s with ctrl := { s.ctrl with loopTop := s.gen.out.length } }.skip 1
  if (← typeAt tokens s.gen.pos) ≠ .tokLparen then some s
  else
    let isFor := decide (type = .forLoop)
    let s ← if isFor then parseForInit tokens fuel (s.skip 1) else some (s.skip 1)
    let (done, s) ← parseCondition tokens fuel isFor s
    if !done then some s
    else
      let s ← if isFor then parseForClauses tokens s else some s
      some { s with
        ctrl :=
          { s.ctrl with
            type := type
            elseState := 1
            outerDepth := s.braceDepth
            loopTop := if isFor && s.ctrl.emptyCond then s.gen.out.length else s.ctrl.loopTop } }

/-! ### Statements -/

def parseReturn (tokens : List Token) (s : Parser) : Option Parser := do
  let tok ← tokens[s.gen.pos + 1]?
  if tok.type = .tokNumber then some ({ s with exitCode := BitVec.ofInt 32 tok.intVal }.skip 3)
  else some (s.skip 2)

/-- A statement that starts with a name that is not built in. -/
def parseNamed (tokens : List Token) (fuel : Nat) (name : CString) (s : Parser) : Option Parser := do
  let next ← typeAt tokens (s.gen.pos + 1)
  match emitCompound next with
  | some op => parseCompound tokens fuel name op s
  | none =>
    if next = .tokAssign then parseAssignment tokens fuel name s
    else if next = .tokLparen then parseCall tokens name s
    else some (s.skip 1)

/-- One turn of the main loop. -/
def parseTurn (tokens : List Token) (fuel : Nat) (s : Parser) : Option Parser := do
  let i := s.gen.pos
  let tok ← tokens[i]?
  match ← functionHead tokens i with
  | some k => some (s.goto k)
  | none =>
    let isName name := tok.type = .tokIdent ∧ tok.str = cstring name
    if ← (if isName "print" ∨ isName "printf" then matchTypes tokens (i + 1) [.tokLparen, .tokString]
        else some false) then
      parsePrint tokens (← tokens[i + 2]?).str s
    else if ← (if isName "malloc" then
        matchTypes tokens (i + 1) [.tokLparen, .tokNumber, .tokRparen] else some false) then
      let size ← tokens[i + 2]?
      some ((s.emit (emitMovEbxImm (BitVec.ofInt 32 size.intVal) ++ emitSyscall 7)).skip 4)
    else
      match tok.type with
      | .tokReturn => parseReturn tokens s
      | .tokIdent =>
        if isName "asm" then parseAsm tokens s else parseNamed tokens fuel tok.str s
      | .tokInt | .tokChar => do
          if (← typeAt tokens (i + 1)) = .tokIdent then
            parseDeclaration tokens fuel (if tok.type = .tokInt then .int else .char) s
          else some (s.skip 1)
      | .tokRbrace => closeBrace tokens fuel s
      | .tokLbrace => some ({ s with braceDepth := s.braceDepth + 1 }.skip 1)
      | .tokIf => parseControl tokens fuel .ifThen s
      | .tokWhile => parseControl tokens fuel .whileLoop s
      | .tokFor => parseControl tokens fuel .forLoop s
      | _ => some (s.skip 1)

/-- `*size - 200`, in 32 bits. -/
def guard (size : Nat) : Nat := (size + (4294967296 - 200)) % 4294967296

/-- The main loop, for `n` turns at most. -/
def parseLoop (tokens : List Token) (size fuel : Nat) : (n : Nat) → Parser → Option Parser
  | 0, _ => none
  | n + 1, s => do
      if (← typeAt tokens s.gen.pos) ≠ .tokEof ∧ s.gen.out.length < guard size then
        parseLoop tokens size fuel n (← parseTurn tokens fuel s)
      else some s

/-! ### The whole program -/

/-- `0x08048080`. -/
def baseAddr : Nat := 0x08048080

/-- `push ebp; mov ebp, esp; sub esp, N`, with the place of `N` at 5. -/
def prologue : List Byte := [0x55, 0x89, 0xE5, 0x81, 0xEC, 0, 0, 0, 0]

def subEspPos : Nat := 5

/-- The static variables of `expr.c` and the tables of functions and relocations outlive a call. -/
def initialParser (g : Gen) : Parser :=
  { gen := { g with pos := 0, out := prologue }
    symtab := symtabInit
    nextOffset := -4
    totalLocalSize := 0
    stringTable := []
    printPatches := []
    exitCode := 0
    ctrl :=
      { type := .none
        elseState := 0
        outerDepth := 0
        jzPatch := 0
        jmpPatch := 0
        loopTop := 0
        incPos := 0
        emptyCond := false }
    braceDepth := 0 }

def frameSize (total : Nat) : Nat := (total + 15) / 16 * 16

/-- The bytes say `mov ebp, esp`, and the comment in the source `mov esp, ebp`. -/
def emitEpilogue (exitCode : Word) : List Byte :=
  [0x89, 0xE5, 0x5D] ++ emitMovEaxImm 1 ++ emitMovEbxImm exitCode ++ emitInt80

/-- The word at `p` of the output. -/
def outWord (out : List Byte) (p : Nat) : Word :=
  X86.joinWord (out.getD p 0) (out.getD (p + 1) 0) (out.getD (p + 2) 0) (out.getD (p + 3) 0)

/-- A string's offset in the table becomes its address. -/
def patchString (codeEnd stringPos : Nat) (out : List Byte) (p : Nat) : List Byte :=
  let offset := outWord out (p + 1)
  if offset.toNat < stringPos then
    patch32 out (p + 1) (BitVec.ofNat 32 (baseAddr + codeEnd) + offset)
  else out

def finish (s : Parser) : List Byte :=
  let s := (s.patch subEspPos (BitVec.ofNat 32 (frameSize s.totalLocalSize))).emit
    (emitEpilogue s.exitCode)
  let codeEnd := s.gen.out.length
  s.printPatches.foldl (patchString codeEnd s.stringTable.length) (s.gen.out ++ s.stringTable)

/-- The output up to the final `*size`. -/
def parseCTokens (fuel : Nat) (tokens : List Token) (size : Nat) (g : Gen) : Option (List Byte) :=
  (parseLoop tokens size fuel fuel (initialParser g)).map finish

end JexOs.Tcc
