import JexOs.Proof.TccSteps

/-!
# The size of an expression

A walk over tokens and symbols that counts the bytes of an expression and writes none of them. Besides the count it
keeps what the code of a later token depends on.
-/

namespace JexOs.Tcc

open X86 (Byte Word wordBytes)

/-- A place among the tokens, the bytes of the code in front of it, and what the declarations, the literals and
the open construct there leave behind. -/
structure Tally where
  pos : Nat
  bytes : Nat
  lastIdentType : SymType
  lastIdentPtrSize : Nat
  leftIsPointer : Bool
  funcTable : List FuncEntry
  symtab : Symtab
  nextOffset : Int
  strings : Nat
  construct : CtrlType
  elseState : Nat
  outerDepth : Int
  incPos : Nat
  emptyCond : Bool
  braceDepth : Int

namespace Tally

def add (t : Tally) (n : Nat) : Tally := { t with bytes := t.bytes + n }
def goto (t : Tally) (i : Nat) : Tally := { t with pos := i }
def skip (t : Tally) (n : Nat) : Tally := t.goto (t.pos + n)

/-- A function that is called and not known yet enters the table, while it has room. -/
def enter (t : Tally) (name : CString) : Option Tally :=
  if t.funcTable.length ≥ maxFuncs then some t
  else
    match t.funcTable.findIdx? fun f => f.name = name with
    | some _ => some t
    | none => do
        let stored ← strncpy name 31
        some { t with funcTable := t.funcTable ++ [{ name := stored, offset := 0 }] }

end Tally

/-- What follows a part, unless the part is refused. -/
def andThen (part : Option (Bool × Tally)) (next : Tally → Option (Bool × Tally)) :
    Option (Bool × Tally) := do
  let (done, t) ← part
  if done then next t else some (false, t)

def backTo (i : Nat) (part : Option (Bool × Tally)) : Option (Bool × Tally) := do
  let (done, t) ← part
  some (done, t.goto i)

/-- The call, and what pops its arguments. -/
def countEmitCall (t : Tally) (name : CString) (funcPos argSizes : Nat) :
    Option (Bool × Tally) := do
  let t ← if funcPos = 0 then (t.add 5).enter name else some (t.add 5)
  some (true, if argSizes > 0 then t.add 6 else t)

def countVariable (tokens : List Token) (name : CString) (t : Tally) : Option (Bool × Tally) :=
  match symtabLookup t.symtab name with
  | none => some (false, t)
  | some sym => do
      let t :=
        { t with
          lastIdentType := sym.type
          lastIdentPtrSize := if hasBaseType sym then symTypeSize sym.baseType else 4 }
      let t := (t.add (emitLoad sym).length).skip 1
      let next ← tokens[t.pos]?
      match next.type with
      | .tokPlusplus =>
        some (true, (t.add (emitPostfix sym (emitAddEaxImm 1) (emitIncrement sym)).length).skip 1)
      | .tokMinusminus =>
        some (true, (t.add (emitPostfix sym emitSubEaxOne (emitDecrement sym)).length).skip 1)
      | _ => some (true, t)

def countPrefixed (tokens : List Token) (emit : Symbol → List Byte) (t : Tally) :
    Option (Bool × Tally) := do
  let tok ← tokens[t.pos]?
  if tok.type ≠ .tokIdent then some (false, t)
  else
    match symtabLookup t.symtab tok.str with
    | none => some (false, t)
    | some sym => some (true, (t.add (emit sym).length).skip 1)

/-- The bytes of an operator between two values. A sum behind a pointer scales the right one first. -/
def binarySize (t : Tally) : TokenType → Nat
  | .tokPlus => if t.leftIsPointer ∧ t.lastIdentPtrSize > 1 then 8 else 2
  | .tokStar => 3
  | .tokSlash => 4
  | .tokMinus | .tokPercent | .tokShl | .tokShr => 6
  | .tokLogand => 16
  | .tokLogor => 19
  | _ => 12

def countBinary (op : TokenType) (t : Tally) : Tally :=
  { t.add (binarySize t op) with leftIsPointer := if op = .tokPlus then false else t.leftIsPointer }

mutual

def countPrimary (tokens : List Token) : (fuel : Nat) → Tally → Option (Bool × Tally)
  | 0, _ => none
  | fuel + 1, t => do
      let tok ← tokens[t.pos]?
      match tok.type with
      | .tokNumber => some (true, (t.add 5).skip 1)
      | .tokIdent => do
          let next ← tokens[t.pos + 1]?
          match next.type with
          | .tokLparen => do
              let funcPos := lookupFunction t.funcTable tok.str
              let (args, behind) ← scanArgs tokens (tokens.length + 1) [] (t.pos + 2)
              match args with
              | none => some (false, t.goto behind)
              | some args =>
                andThen (countArgs tokens fuel args.reverse (t.goto behind)) fun t => do
                  let close ← tokens[t.pos]?
                  countEmitCall (if close.type = .tokRparen then t.skip 1 else t) tok.str funcPos
                    (4 * args.length)
          | .tokLbracket =>
            match symtabLookup t.symtab tok.str with
            | none => some (false, t)
            | some sym =>
              if sym.arraySize ≤ 0 then some (false, t)
              else
                andThen (countExpr1 tokens fuel false precNone (t.skip 2)) fun t => do
                  let close ← tokens[t.pos]?
                  let t := t.add (emitElement sym).length
                  some (true, if close.type = .tokRbracket then t.skip 1 else t)
          | _ => countVariable tokens tok.str t
      | .tokLparen =>
        andThen (countExpr1 tokens fuel false precNone (t.skip 1)) fun t => do
          let close ← tokens[t.pos]?
          if close.type = .tokRparen then some (true, t.skip 1) else some (false, t)
      | .tokAnd => countPrefixed tokens (fun sym => emitLeaEaxEbp sym.offset) (t.skip 1)
      | .tokPlusplus =>
        countPrefixed tokens (fun sym =>
          emitPrefix sym (emitAddEaxImm 1) (emitIncrement sym)) (t.skip 1)
      | .tokMinusminus =>
        countPrefixed tokens (fun sym =>
          emitPrefix sym emitSubEaxOne (emitDecrement sym)) (t.skip 1)
      | .tokStar => andThen (countPrimary tokens fuel (t.skip 1)) fun t => some (true, t.add 2)
      | .tokPlus | .tokMinus | .tokLognot | .tokNot =>
        andThen (countPrimary tokens fuel (t.skip 1)) fun t =>
          some (true, t.add (emitUnary tok.type).length)
      | _ => some (false, t)

def countArgs (tokens : List Token) : (fuel : Nat) → List Nat → Tally → Option (Bool × Tally)
  | 0, _, _ => none
  | _ + 1, [], t => some (true, t)
  | fuel + 1, arg :: args, t =>
    andThen (backTo t.pos (countExpr1 tokens fuel false precNone (t.goto arg))) fun t =>
      countArgs tokens fuel args (t.add 1)

def countExpr1 (tokens : List Token) :
    (fuel : Nat) → (lhsParsed : Bool) → (minPrec : Nat) → Tally → Option (Bool × Tally)
  | 0, _, _, _ => none
  | fuel + 1, lhsParsed, minPrec, t =>
    if lhsParsed then countClimb tokens fuel minPrec t
    else andThen (countPrimary tokens fuel t) fun t => countClimb tokens fuel minPrec t

def countClimb (tokens : List Token) : (fuel minPrec : Nat) → Tally → Option (Bool × Tally)
  | 0, _, _ => none
  | fuel + 1, minPrec, t => do
      let tok ← tokens[t.pos]?
      if !exprIsBinaryOp tok.type then some (true, t)
      else if exprGetPrecedence tok.type < minPrec then some (true, t)
      else
        let t := { t.skip 1 with leftIsPointer := decide (t.lastIdentType = SymType.ptr) }
        andThen (countPrimary tokens fuel (t.add 1)) fun t =>
          andThen (countHigher tokens fuel (exprGetPrecedence tok.type) t) fun t =>
            countClimb tokens fuel minPrec (countBinary tok.type (t.add 1))

def countHigher (tokens : List Token) : (fuel opPrec : Nat) → Tally → Option (Bool × Tally)
  | 0, _, _ => none
  | fuel + 1, opPrec, t => do
      let tok ← tokens[t.pos]?
      if exprIsBinaryOp tok.type ∧ exprGetPrecedence tok.type > opPrec then
        andThen (countExpr1 tokens fuel true (exprGetPrecedence tok.type) t) fun t =>
          countHigher tokens fuel opPrec t
      else some (true, t)

end

/-! ### The count is that of the parser -/

def Gen.tally (g : Gen) (s : Parser) : Tally :=
  { pos := g.pos
    bytes := g.out.length
    lastIdentType := g.lastIdentType
    lastIdentPtrSize := g.lastIdentPtrSize
    leftIsPointer := g.leftIsPointer
    funcTable := g.funcTable
    symtab := s.symtab
    nextOffset := s.nextOffset
    strings := s.stringTable.length
    construct := s.ctrl.type
    elseState := s.ctrl.elseState
    outerDepth := s.ctrl.outerDepth
    incPos := s.ctrl.incPos
    emptyCond := s.ctrl.emptyCond
    braceDepth := s.braceDepth }

/-- The count is that of the call. -/
def Counted (s : Parser) (count : Option (Bool × Tally)) (call : Option (Int × Gen)) : Prop :=
  count = call.map fun r => (decide (0 ≤ r.1), r.2.tally s)

section Counted

variable {s : Parser} {g : Gen} {α : Type} {count count' : Option (Bool × Tally)}
    {call call' : Option (Int × Gen)}

theorem tally_emit (g : Gen) (s : Parser) (bytes : List Byte) :
    (g.emit bytes).tally s = (g.tally s).add bytes.length := by
  unfold Gen.emit Gen.tally Tally.add
  rw [List.length_append]

theorem tally_symtab (g : Gen) (s : Parser) : (g.tally s).symtab = s.symtab := rfl

theorem tally_funcTable (g : Gen) (s : Parser) : (g.tally s).funcTable = g.funcTable := rfl

theorem tally_skip (g : Gen) (s : Parser) (n : Nat) : (g.skip n).tally s = (g.tally s).skip n := rfl

theorem Counted.result {t : Tally} (h : g.tally s = t) :
    Counted s (some (true, t)) (some (0, g)) := by
  rw [← h]
  rfl

theorem Counted.refused : Counted s (some (false, g.tally s)) (some (-1, g)) := rfl

theorem Counted.bind {x : Option α} {f : α → Option (Bool × Tally)} {next : α → Option (Int × Gen)}
    (h : ∀ a, Counted s (f a) (next a)) : Counted s (x >>= f) (x >>= next) := by
  cases x with
  | none => rfl
  | some a => exact h a

theorem Counted.ite {c : Prop} [Decidable c] (h : c → Counted s count call)
    (h' : ¬c → Counted s count' call') :
    Counted s (if c then count else count') (if c then call else call') := by
  split
  · exact h ‹_›
  · exact h' ‹_›

theorem Counted.orFail {f : Tally → Option (Bool × Tally)} {next : Gen → Option (Int × Gen)}
    (h : Counted s count call) (h' : ∀ g, Counted s (f (g.tally s)) (next g)) :
    Counted s (andThen count f) (orFail call next) := by
  obtain rfl := h
  cases call with
  | none => rfl
  | some r =>
    obtain ⟨r, g⟩ := r
    unfold andThen Tcc.orFail
    simp only [Option.map_some, some_bind, decide_eq_true_eq]
    by_cases hr : r < 0
    · rw [if_pos hr, if_neg (Int.not_le.mpr hr)]
      exact Counted.refused
    · rw [if_neg hr, if_pos (Int.not_lt.mp hr)]
      exact h' g

theorem Counted.keepPos {i : Nat} (h : Counted s count call) :
    Counted s (backTo i count) (keepPos i call) := by
  obtain rfl := h
  cases call <;> rfl

theorem tally_register (g : Gen) (name : CString) :
    (registerExternalSymbol g name).map (fun r => r.2.tally s) = (g.tally s).enter name := by
  unfold registerExternalSymbol Tally.enter
  rw [tally_funcTable]
  split
  · rfl
  · cases g.funcTable.findIdx? fun f => f.name = name with
    | some i => rfl
    | none => cases strncpy name 31 <;> rfl

theorem tally_addRelocation (g : Gen) (offset type symIndex : Nat) :
    (addRelocation g offset type symIndex).tally s = g.tally s := by
  unfold addRelocation
  split <;> rfl

theorem counted_emitCall (g : Gen) (name : CString) (funcPos argSizes : Nat) :
    Counted s (countEmitCall (g.tally s) name funcPos argSizes)
      (emitCall g name funcPos argSizes) := by
  have hpops : ∀ g' : Gen,
    Counted s (some (true, if argSizes > 0 then (g'.tally s).add 6 else g'.tally s)) (some (0,
      if argSizes > 0 then g'.emit (0x81 :: 0xC4 :: wordBytes (BitVec.ofNat 32 argSizes))
        else g')) := by
    intro g'
    refine Counted.result ?_
    split
    · exact tally_emit g' s _
    · rfl
  unfold countEmitCall emitCall
  by_cases hextern : funcPos = 0
  · rw [if_pos hextern, if_pos hextern]
    have hregister : (registerExternalSymbol (g.emit (0xE8 :: wordBytes 0)) name).map
      (fun r => r.2.tally s) =
        ((g.tally s).add 5).enter name := by
      rw [tally_register, tally_emit]
      rfl
    rw [← hregister]
    cases registerExternalSymbol (g.emit (0xE8 :: wordBytes 0)) name with
    | none => rfl
    | some r =>
      have h := hpops (addRelocation r.2 (g.out.length + 1) 2 r.1)
      rw [tally_addRelocation] at h
      exact h
  · rw [if_neg hextern, if_neg hextern]
    have h := hpops (g.emit (0xE8 :: wordBytes
      (BitVec.ofNat 32 funcPos - BitVec.ofNat 32 (g.out.length + 5))))
    rw [tally_emit] at h
    exact h

theorem counted_parseVariable (tokens : List Token) (name : CString) (g : Gen) :
    Counted s (countVariable tokens name (g.tally s)) (parseVariable tokens s.symtab name g) := by
  unfold countVariable parseVariable
  rw [tally_symtab]
  cases symtabLookup s.symtab name with
  | none => exact Counted.refused
  | some sym =>
    refine Counted.bind fun next => ?_
    cases next.type
    all_goals
      refine Counted.result ?_
      simp only [tally_skip, tally_emit]
      rfl

theorem counted_parsePrefixed (tokens : List Token) (emit : Symbol → List Byte) (g : Gen) :
    Counted s (countPrefixed tokens emit (g.tally s)) (parsePrefixed tokens s.symtab emit g) := by
  refine Counted.bind fun tok => Counted.ite (fun _ => Counted.refused) fun _ => ?_
  rw [tally_symtab]
  cases symtabLookup s.symtab tok.str with
  | none => exact Counted.refused
  | some sym =>
    refine Counted.result ?_
    rw [tally_skip, tally_emit]

theorem applyBinary_counted {op : TokenType} (hop : exprIsBinaryOp op = true) (g : Gen) :
    ∃ g', applyBinary op g = (0, g') ∧ g'.tally s = countBinary op (g.tally s) := by
  cases op
  case tokPlus =>
    refine ⟨(applyBinary .tokPlus g).2, ?_, ?_⟩
    · unfold applyBinary
      dsimp only
      split <;> rfl
    · unfold applyBinary countBinary binarySize Gen.tally Tally.add
      cases hpointer : g.leftIsPointer with
      | false => simp [hpointer, Gen.emit]
      | true =>
        by_cases hscaled : g.lastIdentPtrSize > 1
        · simp [hscaled, Gen.emit, emitImulEaxImm, emitAddEaxEbx, wordBytes]
        · simp [hscaled, Gen.emit, emitAddEaxEbx]
  case tokMinus | tokStar | tokSlash | tokPercent | tokEq | tokNeq | tokLt | tokGt | tokLe | tokGe | tokLogand
      | tokLogor | tokShl | tokShr => exact ⟨_, rfl, tally_emit g s _⟩
  all_goals exact absurd hop (by decide)

variable {tokens : List Token} {fuel : Nat}

structure CountsExpr (tokens : List Token) (s : Parser) (fuel : Nat) : Prop where
  primary : ∀ g, Counted s (countPrimary tokens fuel (g.tally s))
    (parsePrimary tokens s.symtab fuel g)
  args : ∀ args g, Counted s (countArgs tokens fuel args (g.tally s))
    (pushArgs tokens s.symtab fuel args g)
  expr : ∀ lhs prec g,
    Counted s (countExpr1 tokens fuel lhs prec (g.tally s))
      (parseExpr1 tokens s.symtab fuel lhs prec g)
  climb : ∀ prec g, Counted s (countClimb tokens fuel prec (g.tally s))
    (climb tokens s.symtab fuel prec g)
  higher : ∀ prec g, Counted s (countHigher tokens fuel prec (g.tally s))
    (climbHigher tokens s.symtab fuel prec g)

theorem CountsExpr.primary_succ (h : CountsExpr tokens s fuel) (g : Gen) :
    Counted s (countPrimary tokens (fuel + 1) (g.tally s))
      (parsePrimary tokens s.symtab (fuel + 1) g) := by
  rw [countPrimary, parsePrimary]
  refine Counted.bind fun tok => ?_
  generalize tok.type = type
  cases type
  case tokNumber =>
    refine Counted.result ?_
    rw [tally_skip, tally_emit]
    rfl
  case tokIdent =>
    refine Counted.bind fun next => ?_
    cases next.type
    case tokLparen =>
      refine Counted.bind fun r => ?_
      obtain ⟨args, behind⟩ := r
      cases args with
      | none => exact @Counted.refused s { g with pos := behind }
      | some args =>
        refine Counted.orFail (h.args args.reverse { g with pos := behind }) fun g' =>
          Counted.bind fun close => ?_
        split
        · exact counted_emitCall (g'.skip 1) tok.str _ _
        · exact counted_emitCall g' tok.str _ _
    case tokLbracket =>
      dsimp only
      rw [tally_symtab]
      cases symtabLookup s.symtab tok.str with
      | none => exact Counted.refused
      | some sym =>
        refine Counted.ite (fun _ => Counted.refused) fun _ =>
          Counted.orFail (h.expr false precNone (g.skip 2)) fun g' => Counted.bind fun close =>
            Counted.result ?_
        split
        · rw [tally_skip, tally_emit]
        · exact tally_emit g' s _
    all_goals exact counted_parseVariable tokens tok.str g
  case tokLparen =>
    refine Counted.orFail (h.expr false precNone (g.skip 1)) fun g' => Counted.bind fun close =>
      Counted.ite (fun _ => Counted.result (tally_skip g' s 1)) fun _ => Counted.refused
  case tokAnd | tokPlusplus | tokMinusminus => exact counted_parsePrefixed tokens _ (g.skip 1)
  case tokStar | tokPlus | tokMinus | tokLognot | tokNot =>
    exact Counted.orFail (h.primary (g.skip 1)) fun g' => Counted.result (tally_emit g' s _)
  all_goals exact Counted.refused

theorem CountsExpr.args_succ (h : CountsExpr tokens s fuel) (args : List Nat) (g : Gen) :
    Counted s (countArgs tokens (fuel + 1) args (g.tally s))
      (pushArgs tokens s.symtab (fuel + 1) args g) := by
  cases args with
  | nil => exact Counted.result rfl
  | cons arg args =>
    rw [countArgs, pushArgs]
    refine Counted.orFail (Counted.keepPos (h.expr false precNone { g with pos := arg }))
      fun g' => ?_
    rw [← show _ = (g'.tally s).add 1 from tally_emit g' s emitPushEax]
    exact h.args args _

theorem CountsExpr.climb_succ (h : CountsExpr tokens s fuel) (prec : Nat) (g : Gen) :
    Counted s (countClimb tokens (fuel + 1) prec (g.tally s))
      (Tcc.climb tokens s.symtab (fuel + 1) prec g) := by
  rw [countClimb, Tcc.climb]
  refine Counted.bind fun tok => Counted.ite (fun _ => Counted.result rfl) fun hop =>
    Counted.ite (fun _ => Counted.result rfl) fun _ => ?_
  have hright := h.primary
    ({ g.skip 1 with leftIsPointer := decide (g.lastIdentType = SymType.ptr) }.emit emitPushEax)
  rw [tally_emit] at hright
  refine Counted.orFail hright fun g₂ => Counted.orFail (h.higher _ g₂) fun g₃ => ?_
  obtain ⟨g₄, happly, hbinary⟩ :=
    @applyBinary_counted s tok.type (by simpa using hop) (g₃.emit emitPopEbx)
  have hrest := h.climb prec g₄
  rw [hbinary, tally_emit] at hrest
  rw [happly]
  exact hrest

theorem CountsExpr.higher_succ (h : CountsExpr tokens s fuel) (prec : Nat) (g : Gen) :
    Counted s (countHigher tokens (fuel + 1) prec (g.tally s))
      (climbHigher tokens s.symtab (fuel + 1) prec g) := by
  rw [countHigher, climbHigher]
  exact Counted.bind fun tok =>
    Counted.ite (fun _ => Counted.orFail (h.expr true _ g) fun g' => h.higher prec g') fun _ =>
      Counted.result rfl

theorem countsExpr (tokens : List Token) (s : Parser) (fuel : Nat) : CountsExpr tokens s fuel := by
  induction fuel with
  | zero =>
    exact
      { primary := fun _ => rfl
        args := fun _ _ => rfl
        expr := fun _ _ _ => rfl
        climb := fun _ _ => rfl
        higher := fun _ _ => rfl }
  | succ fuel ih =>
    refine
      { primary := ih.primary_succ
        args := ih.args_succ
        expr := fun lhs prec g => ?_
        climb := ih.climb_succ
        higher := ih.higher_succ }
    rw [countExpr1, parseExpr1]
    exact Counted.ite (fun _ => ih.climb prec g) fun _ =>
      Counted.orFail (ih.primary g) fun g' => ih.climb prec g'

end Counted

end JexOs.Tcc
