import JexOs.Symtab

/-!
# Expressions

`src/bin/expr.c`: precedence climbing that emits code as it reads tokens. The token array is a list;
reading behind its end has no result, like a recursion that runs out of fuel. The compiler appends
to its output, so the output is the list of bytes written and `out_pos` its length.
-/

namespace JexOs.Tcc

open X86 (Byte Word wordBytes)

theorem some_bind {α β : Type} (a : α) (f : α → Option β) : (some a >>= f) = f a := rfl

inductive TokenType where
  | tokInt | tokChar | tokVoid | tokReturn | tokIf | tokElse | tokWhile | tokFor | tokIdent | tokNumber
  | tokString
  | tokPlus | tokMinus | tokStar | tokSlash | tokPercent
  | tokAssign | tokEq | tokNeq | tokLt | tokGt | tokLe | tokGe
  | tokLogand | tokLogor | tokLognot | tokNot | tokAnd
  | tokPlusplus | tokMinusminus
  | tokShl | tokShr
  | tokPluseq | tokMinuseq | tokStareq | tokSlasheq | tokPercenteq
  | tokSemicolon | tokComma | tokLparen | tokRparen
  | tokLbrace | tokRbrace | tokLbracket | tokRbracket
  | tokEof | tokError
deriving DecidableEq, Repr

/-- `token_t`. -/
structure Token where
  type : TokenType
  str : CString
  intVal : Int
deriving DecidableEq, Repr

/-- An entry of `func_table`. -/
structure FuncEntry where
  name : CString
  offset : Nat
deriving DecidableEq, Repr

structure Reloc where
  offset : Nat
  type : Nat
  symIndex : Nat
deriving DecidableEq, Repr

/-- What the functions of `expr.c` change: `*pos`, the output, their static variables, and the tables
of functions and relocations. -/
structure Gen where
  pos : Nat
  out : List Byte
  lastIdentType : SymType
  lastIdentPtrSize : Nat
  leftIsPointer : Bool
  funcTable : List FuncEntry
  relocTable : List Reloc
deriving DecidableEq, Repr

def Gen.emit (g : Gen) (bytes : List Byte) : Gen := { g with out := g.out ++ bytes }
def Gen.skip (g : Gen) (n : Nat) : Gen := { g with pos := g.pos + n }

/-! ### Precedence -/

def precNone : Nat := 0
def precLogor : Nat := 2
def precLogand : Nat := 3
def precEq : Nat := 4
def precRel : Nat := 5
def precShift : Nat := 6
def precAdd : Nat := 7
def precMul : Nat := 8

def exprGetPrecedence : TokenType → Nat
  | .tokPlus | .tokMinus => precAdd
  | .tokStar | .tokSlash | .tokPercent => precMul
  | .tokShl | .tokShr => precShift
  | .tokLt | .tokGt | .tokLe | .tokGe => precRel
  | .tokEq | .tokNeq => precEq
  | .tokLogand => precLogand
  | .tokLogor => precLogor
  | _ => precNone

def exprIsBinaryOp (type : TokenType) : Bool := decide (exprGetPrecedence type > precNone)

/-! ### Emitting -/

def emitMovEaxImm (imm : Word) : List Byte := 0xB8 :: wordBytes imm
def emitPushEax : List Byte := [0x50]
def emitPopEax : List Byte := [0x58]
def emitPopEbx : List Byte := [0x5B]

/-- The ModRM byte and displacement of `[ebp+offset]` with `eax` or opcode extension 0. -/
def ebpOperand (offset : Int) : List Byte :=
  if offset < -128 ∨ offset > 127 then 0x85 :: wordBytes (BitVec.ofInt 32 offset)
  else [0x45, BitVec.ofInt 8 offset]

def emitMovEaxMemEbp (offset : Int) : List Byte := 0x8B :: ebpOperand offset
def emitMovsxEaxMem8Ebp (offset : Int) : List Byte := 0x0F :: 0xBE :: ebpOperand offset
def emitLeaEaxEbp (offset : Int) : List Byte := 0x8D :: ebpOperand offset
def emitMovMemEbpEax (offset : Int) : List Byte := 0x89 :: ebpOperand offset
def emitMovMemEbpAl (offset : Int) : List Byte := 0x88 :: ebpOperand offset
def emitMovEaxMemEax : List Byte := [0x8B, 0x00]
def emitNotEax : List Byte := [0xF7, 0xD0]
def emitNegEax : List Byte := [0xF7, 0xD8]
def emitAddEaxEbx : List Byte := [0x03, 0xC3]
def emitImulEaxImm (imm : Word) : List Byte := 0x69 :: 0xC0 :: wordBytes imm
def emitAddEaxImm (imm : Word) : List Byte := 0x05 :: wordBytes imm
def emitSubEaxOne : List Byte := [0x83, 0xE8, 0x01]
def emitSubEaxImm (imm : Word) : List Byte := 0x81 :: 0xE8 :: wordBytes imm
def emitXorEaxEax : List Byte := [0x33, 0xC0]
def emitCmpEaxEbx : List Byte := [0x39, 0xD8]
def emitSeteAl : List Byte := [0x0F, 0x94, 0xC0]
def emitSetneAl : List Byte := [0x0F, 0x95, 0xC0]
def emitSetlAl : List Byte := [0x0F, 0x9C, 0xC0]
def emitSetgAl : List Byte := [0x0F, 0x9F, 0xC0]
def emitSetleAl : List Byte := [0x0F, 0x9E, 0xC0]
def emitSetgeAl : List Byte := [0x0F, 0x9D, 0xC0]
def emitMovzxEaxAl : List Byte := [0x0F, 0xB6, 0xC0]

/-- `mov ecx, eax; mov eax, ebx`: the right operand to `ecx`, the left one to `eax`. -/
def emitOperands : List Byte := [0x89, 0xC1, 0x89, 0xD8]

/-- `cmp eax, ecx` and the condition as a value. -/
def emitCompare (set : List Byte) : List Byte := emitOperands ++ [0x39, 0xC8] ++ set ++ emitMovzxEaxAl

/-! ### Functions -/

def maxFuncs : Nat := 32
def maxRelocs : Nat := 64
def maxFuncArgs : Nat := 32

def lookupFunction (table : List FuncEntry) (name : CString) : Nat :=
  match table.find? fun f => f.name = name with
  | some f => f.offset
  | none => 0

/-- `register_external_symbol`: the index counts from 1, and 0 is an error. -/
def registerExternalSymbol (g : Gen) (name : CString) : Option (Nat × Gen) :=
  if g.funcTable.length ≥ maxFuncs then some (0, g)
  else
    match g.funcTable.findIdx? fun f => f.name = name with
    | some i => some (i + 1, g)
    | none => do
        let stored ← strncpy name 31
        some (g.funcTable.length + 1,
          { g with
            funcTable := g.funcTable ++
              [{ name := stored
                 offset := 0 }] })

def addRelocation (g : Gen) (offset type symIndex : Nat) : Gen :=
  if g.relocTable.length ≥ maxRelocs then g
  else
    { g with
      relocTable := g.relocTable ++
        [{ offset := offset
           type := type
           symIndex := symIndex }] }

/-- The loop over one argument, up to its comma or the closing parenthesis. -/
def scanArg (tokens : List Token) : (fuel depth pos : Nat) → Option Nat
  | 0, _, _ => none
  | fuel + 1, depth, pos => do
      let tok ← tokens[pos]?
      if tok.type = .tokRparen ∧ depth = 0 then some pos
      else
        let depth := if tok.type = .tokLparen then depth + 1 else depth
        let depth := if tok.type = .tokRparen ∧ depth > 0 then depth - 1 else depth
        if tok.type = .tokComma ∧ depth = 0 then some pos else scanArg tokens fuel depth (pos + 1)

/-- The positions of the arguments, and the position behind them; `none` inside for too many. -/
def scanArgs (tokens : List Token) : (fuel : Nat) → List Nat → (pos : Nat) → Option (Option (List Nat) × Nat)
  | 0, _, _ => none
  | fuel + 1, args, pos => do
      let tok ← tokens[pos]?
      if tok.type = .tokRparen ∨ tok.type = .tokEof then some (some args, pos)
      else if args.length ≥ maxFuncArgs then some (none, pos)
      else
        let next ← scanArg tokens (tokens.length + 1) 0 pos
        let stop ← tokens[next]?
        scanArgs tokens fuel (args ++ [pos]) (if stop.type = .tokComma then next + 1 else next)

/-- The call itself, and the clean-up of `argSizes` bytes. -/
def emitCall (g : Gen) (name : CString) (funcPos argSizes : Nat) : Option (Int × Gen) := do
  let start := g.out.length
  let g ←
    if funcPos = 0 then do
      let (symIndex, g) ← registerExternalSymbol (g.emit (0xE8 :: wordBytes 0)) name
      some (addRelocation g (start + 1) 2 symIndex)
    else
      some (g.emit (0xE8 :: wordBytes (BitVec.ofNat 32 funcPos - BitVec.ofNat 32 (start + 5))))
  some (0, if argSizes > 0 then g.emit (0x81 :: 0xC4 :: wordBytes (BitVec.ofNat 32 argSizes)) else g)

/-! ### Variables -/

/-- `sym->type == SYM_PTR && sym->base_type`. The base type is tested as a number, and that of `int`
is 0. -/
def hasBaseType (sym : Symbol) : Bool := decide (sym.type = .ptr ∧ sym.baseType ≠ .int)

/-- The step of `++` on a symbol that is not a `char`. -/
def emitIncrement (sym : Symbol) : List Byte :=
  emitAddEaxImm (if hasBaseType sym then BitVec.ofNat 32 (symTypeSize sym.baseType) else 1)

def emitDecrement (sym : Symbol) : List Byte :=
  if hasBaseType sym then
    emitSubEaxImm (BitVec.ofNat 32 (symTypeSize sym.baseType))
  else emitSubEaxOne

/-- `x++` and `x--`, after the load of the variable. -/
def emitPostfix (sym : Symbol) (charStep step : List Byte) : List Byte :=
  if sym.type = .char then
    emitMovsxEaxMem8Ebp sym.offset ++ emitPushEax ++ charStep ++ emitMovMemEbpAl sym.offset ++
      emitPopEax
  else
    emitPushEax ++ emitMovEaxMemEbp sym.offset ++ step ++ emitMovMemEbpEax sym.offset ++ emitPopEax

/-- `++x` and `--x`. -/
def emitPrefix (sym : Symbol) (charStep step : List Byte) : List Byte :=
  if sym.type = .char then
    emitMovsxEaxMem8Ebp sym.offset ++ charStep ++ emitMovMemEbpAl sym.offset ++
      emitMovsxEaxMem8Ebp sym.offset
  else
    emitMovEaxMemEbp sym.offset ++ step ++ emitMovMemEbpEax sym.offset ++
      emitMovEaxMemEbp sym.offset

def emitLoad (sym : Symbol) : List Byte :=
  if sym.type = .char then emitMovsxEaxMem8Ebp sym.offset else emitMovEaxMemEbp sym.offset

/-- An identifier that is neither called nor indexed. -/
def parseVariable (tokens : List Token) (tab : Symtab) (name : CString) (g : Gen) : Option (Int × Gen) :=
  match symtabLookup tab name with
  | none => some (-1, g)
  | some sym => do
      let g :=
        { g with
          lastIdentType := sym.type
          lastIdentPtrSize := if hasBaseType sym then symTypeSize sym.baseType else 4 }
      let g := (g.emit (emitLoad sym)).skip 1
      let next ← tokens[g.pos]?
      match next.type with
      | .tokPlusplus =>
        some (0, (g.emit (emitPostfix sym (emitAddEaxImm 1) (emitIncrement sym))).skip 1)
      | .tokMinusminus =>
        some (0, (g.emit (emitPostfix sym emitSubEaxOne (emitDecrement sym))).skip 1)
      | _ => some (0, g)

/-- `++`, `--` and `&` in front of an identifier, which `emit` gives the code for. -/
def parsePrefixed (tokens : List Token) (tab : Symtab) (emit : Symbol → List Byte)
    (g : Gen) : Option (Int × Gen) := do
  let tok ← tokens[g.pos]?
  if tok.type ≠ .tokIdent then some (-1, g)
  else
    match symtabLookup tab tok.str with
    | none => some (-1, g)
    | some sym => some (0, (g.emit (emit sym)).skip 1)

/-- The operators `+ - ! ~` on the value in `eax`. -/
def emitUnary : TokenType → List Byte
  | .tokMinus => emitNegEax
  | .tokLognot =>
    emitPushEax ++ emitXorEaxEax ++ emitPopEbx ++ emitCmpEaxEbx ++ emitSeteAl ++ emitMovzxEaxAl
  | .tokNot => emitNotEax
  | _ => []

/-- An element of an array, once its index is in `eax`. The displacement is a byte, and the offset is
negated. -/
def emitElement (sym : Symbol) : List Byte :=
  [0x50, 0x8D, 0x45, BitVec.ofInt 8 (-sym.offset), 0x5B] ++
    (if symTypeSize sym.baseType = 4 then [0xC1, 0xE3, 0x02] else []) ++ [0x01, 0xD8, 0x8B, 0x00]

/-! ### Binary operators -/

/-- The left operand is in `ebx`, the right one in `eax`. -/
def applyBinary (op : TokenType) (g : Gen) : Int × Gen :=
  match op with
  | .tokShl => (0, g.emit (emitOperands ++ [0xD3, 0xE0]))
  | .tokShr => (0, g.emit (emitOperands ++ [0xD3, 0xE8]))
  | .tokPlus =>
    if g.leftIsPointer then
      let g :=
        if g.lastIdentPtrSize > 1 then
          g.emit (emitImulEaxImm (BitVec.ofNat 32 g.lastIdentPtrSize))
        else g
      (0, { g.emit emitAddEaxEbx with leftIsPointer := false })
    else (0, g.emit [0x03, 0xC3])
  | .tokMinus => (0, g.emit (emitOperands ++ [0x29, 0xC8]))
  | .tokStar => (0, g.emit [0x0F, 0xAF, 0xC3])
  | .tokSlash => (0, g.emit [0x93, 0x99, 0xF7, 0xFB])
  | .tokPercent => (0, g.emit [0x93, 0x99, 0xF7, 0xFB, 0x89, 0xD0])
  | .tokLt => (0, g.emit (emitCompare emitSetlAl))
  | .tokGt => (0, g.emit (emitCompare emitSetgAl))
  | .tokLe => (0, g.emit (emitCompare emitSetleAl))
  | .tokGe => (0, g.emit (emitCompare emitSetgeAl))
  | .tokEq => (0, g.emit (emitCompare emitSeteAl))
  | .tokNeq => (0, g.emit (emitCompare emitSetneAl))
  | .tokLogand =>
    (0, g.emit ([0x85, 0xDB, 0x74, 0x05, 0x85, 0xC0] ++ emitSetneAl ++ emitMovzxEaxAl ++
      [0xEB, 0x03, 0x33, 0xC0]))
  | .tokLogor =>
    (0, g.emit ([0x85, 0xDB, 0x75, 0x05, 0x85, 0xC0] ++ emitSetneAl ++ emitMovzxEaxAl ++
      [0xEB, 0x03, 0xB8, 0x01, 0x00, 0x00, 0x00]))
  | _ => (-1, g)

/-! ### The parser -/

/-- `if (call < 0) return -1;` and what follows. -/
def orFail (call : Option (Int × Gen)) (next : Gen → Option (Int × Gen)) : Option (Int × Gen) := do
  let (r, g) ← call
  if r < 0 then some (-1, g) else next g

/-- The call moves a copy of `*pos`. -/
def keepPos (i : Nat) (call : Option (Int × Gen)) : Option (Int × Gen) := do
  let (r, g) ← call
  some (r, { g with pos := i })

mutual

def parsePrimary (tokens : List Token) (tab : Symtab) : (fuel : Nat) → Gen → Option (Int × Gen)
  | 0, _ => none
  | fuel + 1, g => do
      let tok ← tokens[g.pos]?
      match tok.type with
      | .tokNumber => some (0, (g.emit (emitMovEaxImm (BitVec.ofInt 32 tok.intVal))).skip 1)
      | .tokIdent => do
          let next ← tokens[g.pos + 1]?
          match next.type with
          | .tokLparen => do
              let funcPos := lookupFunction g.funcTable tok.str
              let (args, behind) ← scanArgs tokens (tokens.length + 1) [] (g.pos + 2)
              match args with
              | none => some (-1, { g with pos := behind })
              | some args =>
                orFail (pushArgs tokens tab fuel args.reverse { g with pos := behind }) fun g => do
                  let close ← tokens[g.pos]?
                  emitCall (if close.type = .tokRparen then g.skip 1 else g) tok.str funcPos
                    (4 * args.length)
          | .tokLbracket =>
            match symtabLookup tab tok.str with
            | none => some (-1, g)
            | some sym =>
              if sym.arraySize ≤ 0 then some (-1, g)
              else
                orFail (parseExpr1 tokens tab fuel false precNone (g.skip 2)) fun g => do
                  let close ← tokens[g.pos]?
                  let g := g.emit (emitElement sym)
                  some (0, if close.type = .tokRbracket then g.skip 1 else g)
          | _ => parseVariable tokens tab tok.str g
      | .tokLparen =>
        orFail (parseExpr1 tokens tab fuel false precNone (g.skip 1)) fun g => do
          let close ← tokens[g.pos]?
          if close.type = .tokRparen then some (0, g.skip 1) else some (-1, g)
      | .tokAnd => parsePrefixed tokens tab (fun sym => emitLeaEaxEbp sym.offset) (g.skip 1)
      | .tokPlusplus =>
        parsePrefixed tokens tab (fun sym => emitPrefix sym (emitAddEaxImm 1) (emitIncrement sym))
          (g.skip 1)
      | .tokMinusminus =>
        parsePrefixed tokens tab (fun sym => emitPrefix sym emitSubEaxOne (emitDecrement sym))
          (g.skip 1)
      | .tokStar =>
        orFail (parsePrimary tokens tab fuel (g.skip 1)) fun g => some (0, g.emit emitMovEaxMemEax)
      | .tokPlus | .tokMinus | .tokLognot | .tokNot =>
        orFail (parsePrimary tokens tab fuel (g.skip 1)) fun g =>
          some (0, g.emit (emitUnary tok.type))
      | _ => some (-1, g)

/-- The loop that pushes the arguments, whose positions come last first; `*pos` stays. -/
def pushArgs (tokens : List Token) (tab : Symtab) : (fuel : Nat) → List Nat → Gen → Option (Int × Gen)
  | 0, _, _ => none
  | _ + 1, [], g => some (0, g)
  | fuel + 1, arg :: args, g =>
    orFail (keepPos g.pos (parseExpr1 tokens tab fuel false precNone { g with pos := arg }))
      fun g => pushArgs tokens tab fuel args (g.emit emitPushEax)

def parseExpr1 (tokens : List Token) (tab : Symtab) :
    (fuel : Nat) → (lhsParsed : Bool) → (minPrec : Nat) → Gen → Option (Int × Gen)
  | 0, _, _, _ => none
  | fuel + 1, lhsParsed, minPrec, g =>
    if lhsParsed then climb tokens tab fuel minPrec g
    else orFail (parsePrimary tokens tab fuel g) fun g => climb tokens tab fuel minPrec g

/-- The loop over the operators that bind at least as tightly as `minPrec`. -/
def climb (tokens : List Token) (tab : Symtab) : (fuel minPrec : Nat) → Gen → Option (Int × Gen)
  | 0, _, _ => none
  | fuel + 1, minPrec, g => do
      let tok ← tokens[g.pos]?
      if !exprIsBinaryOp tok.type then some (0, g)
      else if exprGetPrecedence tok.type < minPrec then some (0, g)
      else
        let g := { g.skip 1 with leftIsPointer := decide (g.lastIdentType = SymType.ptr) }
        orFail (parsePrimary tokens tab fuel (g.emit emitPushEax)) fun g =>
          orFail (climbHigher tokens tab fuel (exprGetPrecedence tok.type) g) fun g =>
            let (r, g) := applyBinary tok.type (g.emit emitPopEbx)
            if r < 0 then some (-1, g) else climb tokens tab fuel minPrec g

/-- The loop over tighter operators behind the right operand. -/
def climbHigher (tokens : List Token) (tab : Symtab) : (fuel opPrec : Nat) → Gen → Option (Int × Gen)
  | 0, _, _ => none
  | fuel + 1, opPrec, g => do
      let tok ← tokens[g.pos]?
      if exprIsBinaryOp tok.type ∧ exprGetPrecedence tok.type > opPrec then
        orFail (parseExpr1 tokens tab fuel true (exprGetPrecedence tok.type) g) fun g =>
          climbHigher tokens tab fuel opPrec g
      else some (0, g)

end

def exprParse (tokens : List Token) (tab : Symtab) (fuel : Nat) (g : Gen) : Option (Int × Gen) :=
  parseExpr1 tokens tab fuel false precNone g

end JexOs.Tcc
