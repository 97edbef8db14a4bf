import JexOs.Proof.TccSizes

/-!
# How much the compiler writes

The main loop of `parse_c_tokens` looks at the room left once a turn. The bytes of a turn are counted here from
its tokens and the symbols in front of it.
-/

namespace JexOs.Tcc

open X86 (Byte Word wordBytes)
open List Option

/-! ### The bytes of a statement -/

namespace Tally

/-- A literal takes its code and a place in the string table, unless that is full. -/
def print (t : Tally) (text : CString) : Tally :=
  if t.strings + text.length + 1 ≤ 1024 then
    { t.add 12 with strings := t.strings + text.length + 1 } else t

def literal (t : Tally) (text : CString) : Tally := if text = [] then t else t.print text

def stringArg (t : Tally) (tok : Token) : Tally :=
  match tok.type with
  | .tokString => t.print tok.str
  | .tokIdent => t.add ((emitVariableArg t.symtab tok.str).length + 7)
  | _ => t

def declare (t : Tally) (name : CString) (type : SymType) : Option Tally := do
  let (_, tab) ← symtabAdd t.symtab name type t.nextOffset 1
  some { t with symtab := tab, nextOffset := t.nextOffset - symTypeSize type }

def introduce (t : Tally) (name : CString) : Option (Option Symbol × Tally) :=
  match symtabLookup t.symtab name with
  | some sym => some (some sym, t)
  | none => do
      let t ← t.declare name .int
      some (symtabLookup t.symtab name, t)

end Tally

def countAt (tokens : List Token) (fuel : Nat) (t : Tally) (p : Nat) :
    Option (Bool × Nat × Tally) := do
  let (done, t') ← countExpr1 tokens fuel false precNone (t.goto p)
  some (done, t'.pos, t'.goto t.pos)

/-- The literal texts of a format are printed one by one, and each specifier takes a call. -/
def countFormat (tokens : List Token) (first : Nat) :
    (format : CString) → (argIdx : Nat) → (text : CString) → Tally → Option Tally
  | [], _, text, t => some (t.literal text)
  | [c], _, text, t => some (t.literal (text ++ [c]))
  | c :: spec :: rest, argIdx, text, t =>
    if c = ch '%' then
      let t := t.literal text
      if spec = ch '%' then countFormat tokens first rest argIdx [] (t.add 12)
      else
        match specifierCall spec with
        | some _ => do
            let tok ← tokens[← locateArg tokens argIdx first]?
            countFormat tokens first rest (argIdx + 1) []
              (t.add ((emitArg t.symtab tok).length + 7))
        | none =>
          if spec = ch 's' then do
            let tok ← tokens[← locateArg tokens argIdx first]?
            countFormat tokens first rest (argIdx + 1) [] (t.stringArg tok)
          else countFormat tokens first (spec :: rest) argIdx (text ++ [c]) t
    else countFormat tokens first (spec :: rest) argIdx (text ++ [c]) t

def countPrint (tokens : List Token) (format : CString) (t : Tally) : Option Tally := do
  let i := t.pos
  let t ← countFormat tokens (i + 4) format 0 [] t
  some (t.goto (← skipStatement tokens (i + 3)))

def countAsm (tokens : List Token) (t : Tally) : Option Tally := do
  let i := t.pos
  let tok ← tokens[← skipTo tokens [.tokString] (i + 1)]?
  let t := if tok.type = .tokString ∧ cstring "int $0x80" <:+: tok.str then t.add 2 else t
  some (t.goto (← skipStatement tokens i))

def countName (tokens : List Token) (type : SymType) (name : CString) (j : Nat) (t : Tally) :
    Option (Nat × Tally) := do
  let offset := t.nextOffset
  let t ← t.declare name type
  if (← typeAt tokens (j + 1)) = .tokAssign then
    let tok ← tokens[j + 2]?
    some (j + 2, t.add ((emitInitializer t.symtab tok).length + (emitMovMemEbpEax offset).length))
  else some (j, t)

def countNames (tokens : List Token) (type : SymType) : (fuel j : Nat) → Tally → Option Tally
  | 0, _, _ => none
  | fuel + 1, j, t => do
      let tok ← tokens[j]?
      if tok.type = .tokSemicolon ∨ tok.type = .tokEof then some t
      else
        let (j, t) ← if tok.type = .tokIdent then countName tokens type tok.str j t else some (j, t)
        countNames tokens type fuel (← skipIf tokens .tokComma (j + 1)) t

def countDeclaration (tokens : List Token) (fuel : Nat) (type : SymType) (t : Tally) :
    Option Tally := do
  let i := t.pos
  let t ← countNames tokens type fuel (i + 1) t
  some (t.goto (← skipStatement tokens i))

def countCompound (tokens : List Token) (fuel : Nat) (name : CString) (op : List Byte)
    (t : Tally) : Option Tally :=
  match symtabLookup t.symtab name with
  | none => some (t.skip 1)
  | some sym => do
    let (done, p, t) ← countAt tokens fuel t (t.pos + 2)
    if done then
      let t := t.add (2 + (emitMovEaxMemEbp sym.offset).length + op.length +
        (emitMovMemEbpEax sym.offset).length)
      some (t.goto (← skipStatement tokens p))
    else some (t.skip 1)

def countAssignment (tokens : List Token) (fuel : Nat) (name : CString) (t : Tally) :
    Option Tally := do
  let i := t.pos
  let (sym, t) ← t.introduce name
  match sym with
  | none => some (t.goto (← skipStatement tokens i))
  | some sym =>
    let store := (emitMovMemEbpEax sym.offset).length
    let rhs ← tokens[i + 2]?
    let called ← if rhs.type = .tokIdent then
        (typeAt tokens (i + 3)).map fun type => decide (type = .tokLparen)
      else some false
    if called then
      if rhs.str = cstring "getpid" ∧ (← typeAt tokens (i + 4)) = .tokRparen then
        some ((t.add (7 + store)).goto (← skipIf tokens .tokSemicolon (i + 5)))
      else some (t.goto (← skipStatement tokens (i + 2)))
    else
      let (done, p, t) ← countAt tokens fuel t (i + 2)
      if done then some ((t.add store).goto (← skipStatement tokens p))
      else some (t.goto (← skipStatement tokens i))

def countCall (tokens : List Token) (name : CString) (t : Tally) : Option Tally := do
  let i := t.pos
  let arg ← tokens[i + 2]?
  if name = cstring "getpid" ∧ arg.type = .tokRparen then
    some ((t.add 7).goto (← skipIf tokens .tokSemicolon (i + 3)))
  else
    let exits ← if name = cstring "exit" then matchTypes tokens (i + 2) [.tokNumber, .tokRparen]
      else some false
    if exits then some ((t.add 12).goto (← skipIf tokens .tokSemicolon (i + 4)))
    else some (t.goto (← skipStatement tokens (i + 1)))

def countNamed (tokens : List Token) (fuel : Nat) (name : CString) (t : Tally) : Option Tally := do
  let next ← typeAt tokens (t.pos + 1)
  match emitCompound next with
  | some op => countCompound tokens fuel name op t
  | none =>
    if next = .tokAssign then countAssignment tokens fuel name t
    else if next = .tokLparen then countCall tokens name t
    else some (t.skip 1)

def countForIncrement (tokens : List Token) (fuel : Nat) (t : Tally) : Option Tally := do
  let p := t.incPos
  if p = 0 then some t
  else
    let tok ← tokens[p]?
    if tok.type ≠ .tokIdent then some t
    else
      let next ← typeAt tokens (p + 1)
      if next = .tokPlusplus ∨ next = .tokMinusminus then
        match symtabLookup t.symtab tok.str with
        | some sym => some (t.add (emitForStep sym next).length)
        | none => some t
      else if next = .tokAssign then
        let (done, _, t) ← countAt tokens fuel t (p + 2)
        match symtabLookup t.symtab tok.str with
        | some sym => some (if done then t.add (emitMovMemEbpEax sym.offset).length else t)
        | none => some t
      else some t

/-- The brace behind the first body of an `if`, with the jump over an `else`. -/
def countThen (tokens : List Token) (t : Tally) : Option Tally := do
  let i := t.pos + 1
  if (← typeAt tokens i) = .tokElse then
    let t := { t.add 5 with elseState := 2, outerDepth := t.braceDepth }
    if (← typeAt tokens (i + 1)) = .tokLbrace then
      some ({ t with braceDepth := t.braceDepth + 1 }.goto (i + 2))
    else some (t.goto (i + 1))
  else some ({ t with construct := .none, elseState := 0, braceDepth := t.braceDepth - 1 }.goto i)

def countLoop (tokens : List Token) (fuel : Nat) (t : Tally) : Option Tally := do
  let t ← if t.construct = .forLoop then countForIncrement tokens fuel t else some t
  some ({ t.add 5 with construct := .none, braceDepth := t.braceDepth - 1 }.skip 1)

def countBrace (tokens : List Token) (fuel : Nat) (t : Tally) : Option Tally :=
  let inner := t.braceDepth = t.outerDepth + 1
  if t.construct = .ifThen ∧ t.elseState = 1 ∧ inner then countThen tokens t
  else if t.construct = .ifThen ∧ t.elseState = 2 ∧ inner then
    some ({ t with construct := .none, elseState := 0, braceDepth := t.braceDepth - 1 }.skip 1)
  else if (t.construct = .whileLoop ∨ t.construct = .forLoop) ∧ inner then countLoop tokens fuel t
  else some ({ t with braceDepth := t.braceDepth - 1 }.skip 1)

def countForInit (tokens : List Token) (fuel : Nat) (t : Tally) : Option Tally := do
  let i := t.pos
  let tok ← tokens[i]?
  if tok.type = .tokSemicolon then some (t.skip 1)
  else if ← matchTypes tokens i [.tokIdent, .tokAssign] then
    let (sym, t) ← t.introduce tok.str
    match sym with
    | some sym =>
      let (done, p, t) ← countAt tokens fuel t (i + 2)
      let t := if done then t.add (emitMovMemEbpEax sym.offset).length else t
      some (t.goto (← skipIf tokens .tokSemicolon p))
    | none => some (t.goto (← skipIf tokens .tokSemicolon i))
  else some (t.goto (← skipStatement tokens i))

/-- A condition is tested and jumped on with 8 bytes. -/
def countCondition (tokens : List Token) (fuel : Nat) (isFor : Bool) (t : Tally) :
    Option (Bool × Tally) := do
  let type ← typeAt tokens t.pos
  if isFor ∧ (type = .tokSemicolon ∨ type = .tokRparen) then
    some (true, { t with emptyCond := true })
  else if ¬isFor ∧ type = .tokRparen then some (false, t)
  else
    let (done, p, t) ← countAt tokens fuel t t.pos
    if !done then some (false, t)
    else
      let t := if isFor then t else t.goto p
      if ¬isFor ∧ (← typeAt tokens t.pos) ≠ .tokRparen then some (false, t)
      else some (true, (if isFor then t else t.skip 1).add 8)

def countForClauses (tokens : List Token) (t : Tally) : Option Tally := do
  let i := t.pos
  let i ← if t.emptyCond then some i else skipTo tokens [.tokSemicolon, .tokRparen] i
  if (← typeAt tokens i) = .tokSemicolon then
    some ({ t with incPos := i + 1 }.goto
      (← skipIf tokens .tokRparen (← skipTo tokens [.tokRparen] (i + 1))))
  else some (t.goto (← skipIf tokens .tokRparen i))

def countControl (tokens : List Token) (fuel : Nat) (type : CtrlType) (t : Tally) :
    Option Tally := do
  let t := t.skip 1
  if (← typeAt tokens t.pos) ≠ .tokLparen then some t
  else
    let isFor := decide (type = .forLoop)
    let t ← if isFor then countForInit tokens fuel (t.skip 1) else some (t.skip 1)
    let (done, t) ← countCondition tokens fuel isFor t
    if !done then some t
    else
      let t ← if isFor then countForClauses tokens t else some t
      some { t with construct := type, elseState := 1, outerDepth := t.braceDepth }

def countReturn (tokens : List Token) (t : Tally) : Option Tally := do
  let tok ← tokens[t.pos + 1]?
  some (t.skip (if tok.type = .tokNumber then 3 else 2))

def countTurn (tokens : List Token) (fuel : Nat) (t : Tally) : Option Tally := do
  let i := t.pos
  let tok ← tokens[i]?
  match ← functionHead tokens i with
  | some k => some (t.goto k)
  | none =>
    let isName name := tok.type = .tokIdent ∧ tok.str = cstring name
    if ← (if isName "print" ∨ isName "printf" then
        matchTypes tokens (i + 1) [.tokLparen, .tokString] else some false) then
      countPrint tokens (← tokens[i + 2]?).str t
    else if ← (if isName "malloc" then
        matchTypes tokens (i + 1) [.tokLparen, .tokNumber, .tokRparen] else some false) then do
      let _ ← tokens[i + 2]?
      some ((t.add 12).skip 4)
    else
      match tok.type with
      | .tokReturn => countReturn tokens t
      | .tokIdent => if isName "asm" then countAsm tokens t else countNamed tokens fuel tok.str t
      | .tokInt | .tokChar => do
          if (← typeAt tokens (i + 1)) = .tokIdent then
            countDeclaration tokens fuel (if tok.type = .tokInt then .int else .char) t
          else some (t.skip 1)
      | .tokRbrace => countBrace tokens fuel t
      | .tokLbrace => some ({ t with braceDepth := t.braceDepth + 1 }.skip 1)
      | .tokIf => countControl tokens fuel .ifThen t
      | .tokWhile => countControl tokens fuel .whileLoop t
      | .tokFor => countControl tokens fuel .forLoop t
      | _ => some (t.skip 1)

/-! ### The count is that of the compiler -/

def Parser.tally (s : Parser) : Tally := s.gen.tally s

/-- The places that are still to be patched lie inside the output. -/
structure Patchable (s : Parser) : Prop where
  jz : s.ctrl.jzPatch + 6 ≤ s.gen.out.length
  jmp : s.ctrl.jmpPatch + 5 ≤ s.gen.out.length
  prints : ∀ p ∈ s.printPatches, p + 5 ≤ s.gen.out.length
  frame : subEspPos + 4 ≤ s.gen.out.length

/-- Both have no result, or the count is that of the result. -/
def Counts (result : Option Parser) (count : Option Tally) : Prop :=
  result.map Parser.tally = count ∧ ∀ s, result = some s → Patchable s

section Counts

variable {s s' : Parser} {α : Type} {res res' : Option Parser} {count count' : Option Tally}

theorem Counts.result {t : Tally} (h : Patchable s) (ht : s.tally = t) :
    Counts (some s) (some t) := by
  refine ⟨congrArg some ht, ?_⟩
  rintro _ ⟨⟩
  exact h

theorem Counts.bind {x : Option α} {g : α → Option Parser} {f : α → Option Tally}
    (h : ∀ a, x = some a → Counts (g a) (f a)) : Counts (x >>= g) (x >>= f) := by
  cases x with
  | none => exact ⟨rfl, fun _ h => by cases h⟩
  | some a => exact h a rfl

theorem Counts.ite {c : Prop} [Decidable c] (h : c → Counts res count)
    (h' : ¬c → Counts res' count') :
    Counts (if c then res else res') (if c then count else count') := by
  split
  · exact h ‹_›
  · exact h' ‹_›

theorem Counts.next {g : Parser → Option Parser} {f : Tally → Option Tally} (h : Counts res count)
    (h' : ∀ s, Patchable s → Counts (g s) (f s.tally)) : Counts (res >>= g) (count >>= f) := by
  obtain ⟨rfl, hpatch⟩ := h
  cases res with
  | none => exact ⟨rfl, fun _ h => by cases h⟩
  | some s => exact h' s (hpatch s rfl)

theorem Patchable.append {bytes : List Byte} (h : Patchable s)
    (hout : s'.gen.out = s.gen.out ++ bytes)
    (hjz : s'.ctrl.jzPatch = s.ctrl.jzPatch) (hjmp : s'.ctrl.jmpPatch = s.ctrl.jmpPatch)
    (hprints : s'.printPatches = s.printPatches) : Patchable s' := by
  have hlength : s.gen.out.length ≤ s'.gen.out.length := by
    rw [hout, length_append]
    exact Nat.le_add_right _ _
  exact
    { jz := by rw [hjz]; exact h.jz.trans hlength
      jmp := by rw [hjmp]; exact h.jmp.trans hlength
      prints := by rw [hprints]; exact fun p hp => (h.prints p hp).trans hlength
      frame := h.frame.trans hlength }

theorem Patchable.emit (h : Patchable s) (bytes : List Byte) : Patchable (s.emit bytes) :=
  h.append rfl rfl rfl rfl

theorem Parser.tally_emit (s : Parser) (bytes : List Byte) :
    (s.emit bytes).tally = s.tally.add bytes.length :=
  Tcc.tally_emit s.gen s bytes

theorem Counts.goto (h : Patchable s) (i : Nat) :
    Counts (some (s.goto i)) (some (s.tally.goto i)) :=
  .result ⟨h.jz, h.jmp, h.prints, h.frame⟩ rfl

theorem Counts.emit (h : Patchable s) (bytes : List Byte) :
    Counts (some (s.emit bytes)) (some (s.tally.add bytes.length)) :=
  .result (h.emit bytes) (s.tally_emit bytes)

theorem Counts.emit_goto (h : Patchable s) (bytes : List Byte) (i : Nat) :
    Counts (some ((s.emit bytes).goto i)) (some ((s.tally.add bytes.length).goto i)) := by
  rw [← Parser.tally_emit]
  exact .goto (h.emit bytes) i

theorem length_patch32 {out : List Byte} {p : Nat} (v : Word) (h : p + 4 ≤ out.length) :
    (patch32 out p v).length = out.length := by
  unfold patch32
  rw [length_append, length_append, length_take, length_drop]
  have hword : (wordBytes v).length = 4 := rfl
  omega

theorem Patchable.patch {p : Nat} (h : Patchable s) (v : Word) (hp : p + 4 ≤ s.gen.out.length) :
    Patchable (s.patch p v) ∧ (s.patch p v).tally = s.tally := by
  have hlength : (s.patch p v).gen.out.length = s.gen.out.length := length_patch32 v hp
  refine
    ⟨{ jz := ?_
       jmp := ?_
       prints := ?_
       frame := ?_ }, ?_⟩
  · rw [hlength]
    exact h.jz
  · rw [hlength]
    exact h.jmp
  · rw [hlength]
    exact h.prints
  · rw [hlength]
    exact h.frame
  · unfold Parser.tally Gen.tally
    rw [hlength]
    rfl

end Counts

section Turn

variable {tokens : List Token} {fuel : Nat} {s s' : Parser} {name : CString} {type : SymType}

/-! #### Expressions and names -/

theorem counts_parseAt (hs : Patchable s) (p : Nat) {g : Bool × Nat × Parser → Option Parser}
    {f : Bool × Nat × Tally → Option Tally}
    (h : ∀ done q s₁, Patchable s₁ → s₁.gen.pos = s.gen.pos →
      Counts (g (done, q, s₁)) (f (done, q, s₁.tally))) :
    Counts (parseAt tokens fuel s p >>= g) (countAt tokens fuel s.tally p >>= f) := by
  have hcount := (countsExpr tokens s fuel).expr false precNone { s.gen with pos := p }
  unfold countAt parseAt exprParse
  unfold Counted at hcount
  rw [show s.tally.goto p = Gen.tally { s.gen with pos := p } s from rfl, hcount]
  cases hexpr : parseExpr1 tokens s.symtab fuel false precNone { s.gen with pos := p } with
  | none => exact ⟨rfl, fun _ h => by cases h⟩
  | some r =>
    obtain ⟨bytes, hbytes, -⟩ := exprParse_appends (templates_true s.symtab) hexpr
    have hkept : Patchable { s with gen := { r.2 with pos := s.gen.pos } } :=
      hs.append hbytes rfl rfl rfl
    exact h _ _ _ hkept rfl

theorem counts_declare (hs : Patchable s) {g : Parser → Option Parser} {f : Tally → Option Tally}
    (h : ∀ s₁, Patchable s₁ → Counts (g s₁) (f s₁.tally)) :
    Counts (s.declare name type >>= g) (s.tally.declare name type >>= f) := by
  unfold Parser.declare Tally.declare
  rw [show symtabAdd s.tally.symtab name type s.tally.nextOffset 1 =
    symtabAdd s.symtab name type s.nextOffset 1 from rfl]
  cases symtabAdd s.symtab name type s.nextOffset 1 with
  | none => exact ⟨rfl, fun _ h => by cases h⟩
  | some r => exact h _ ⟨hs.jz, hs.jmp, hs.prints, hs.frame⟩

theorem counts_lookupOrDeclare (hs : Patchable s) {g : Option Symbol × Parser → Option Parser}
    {f : Option Symbol × Tally → Option Tally}
    (h : ∀ sym s₁, Patchable s₁ → Counts (g (sym, s₁)) (f (sym, s₁.tally))) :
    Counts (lookupOrDeclare s name >>= g) (s.tally.introduce name >>= f) := by
  unfold lookupOrDeclare Tally.introduce
  rw [show s.tally.symtab = s.symtab from rfl]
  cases symtabLookup s.symtab name with
  | some sym => exact h (some sym) s hs
  | none =>
    simp only [bind_eq_bind, bind_assoc]
    exact counts_declare hs fun s₁ hs₁ => h _ s₁ hs₁


/-! #### `print` -/

theorem counts_emitPrint (hs : Patchable s) (text : CString) :
    Patchable (emitPrint s text) ∧ (emitPrint s text).tally = s.tally.print text := by
  unfold emitPrint Tally.print
  rw [show s.tally.strings = s.stringTable.length from rfl]
  split
  · have hemit := hs.emit (emitMovEaxImm 0 ++ emitMovEbxImm
      (BitVec.ofNat 32 s.stringTable.length) ++ emitInt80)
    have hlength : (s.emit (emitMovEaxImm 0 ++ emitMovEbxImm
      (BitVec.ofNat 32 s.stringTable.length) ++
        emitInt80)).gen.out.length = s.gen.out.length + 12 := length_append
    refine ⟨⟨hemit.jz, hemit.jmp, fun p hp => ?_, hemit.frame⟩, ?_⟩
    · split at hp
      · rcases mem_append.mp hp with hp | hp
        · exact hemit.prints p hp
        · rw [mem_singleton.mp hp]
          change _ ≤ (s.emit _).gen.out.length
          omega
      · exact hemit.prints p hp
    · unfold Parser.tally Gen.tally Tally.add Gen.emit
      simp only [length_append]
      rfl
  · exact ⟨hs, rfl⟩

theorem counts_emitLiteral (hs : Patchable s) (text : CString) :
    Patchable (emitLiteral s text) ∧ (emitLiteral s text).tally = s.tally.literal text := by
  unfold emitLiteral Tally.literal
  split
  · exact ⟨hs, rfl⟩
  · exact counts_emitPrint hs text

theorem counts_emitStringArg (hs : Patchable s) (tok : Token) :
    Patchable (emitStringArg s tok) ∧ (emitStringArg s tok).tally = s.tally.stringArg tok := by
  unfold emitStringArg Tally.stringArg
  cases tok.type
  case tokString => exact counts_emitPrint hs tok.str
  case tokIdent =>
    refine ⟨hs.emit _, ?_⟩
    rw [Parser.tally_emit, length_append]
    rfl
  all_goals exact ⟨hs, rfl⟩

theorem counts_formatLoop (first : Nat) (format : CString) (argIdx : Nat)
    (text : CString) (s : Parser) (hs : Patchable s) :
    Counts (formatLoop tokens first format argIdx text s)
      (countFormat tokens first format argIdx text s.tally) := by
  fun_induction formatLoop tokens first format argIdx text s with
  | case1 argIdx text s =>
    obtain ⟨hs', ht⟩ := counts_emitLiteral hs text
    exact .result hs' ht
  | case2 argIdx c text s =>
    obtain ⟨hs', ht⟩ := counts_emitLiteral hs (text ++ [c])
    exact .result hs' ht
  | case3 rest argIdx text s literal ih =>
    obtain ⟨hs', ht⟩ := counts_emitLiteral hs text
    have hrest := ih (hs'.emit _)
    rw [Parser.tally_emit, ht] at hrest
    rw [countFormat, if_pos rfl, if_pos rfl]
    exact hrest
  | case4 spec rest argIdx text s literal hpct number hcall ih =>
    obtain ⟨hs', ht⟩ := counts_emitLiteral hs text
    rw [countFormat, if_pos rfl, if_neg hpct, hcall]
    refine .bind fun idx _ => .bind fun tok _ => ?_
    have hrest := ih tok (hs'.emit _)
    rw [Parser.tally_emit, ht, length_append] at hrest
    rw [← ht]
    rw [← ht] at hrest
    exact hrest
  | case5 rest argIdx text s literal hpct hcall ih =>
    obtain ⟨hs', ht⟩ := counts_emitLiteral hs text
    rw [countFormat, if_pos rfl, if_neg hpct, hcall]
    rw [if_pos rfl]
    refine .bind fun idx _ => .bind fun tok _ => ?_
    obtain ⟨hs₂, ht₂⟩ := counts_emitStringArg hs' tok
    have hrest := ih tok hs₂
    rw [ht₂, ht] at hrest
    exact hrest
  | case6 spec rest argIdx text s literal hpct hcall hstring ih =>
    obtain ⟨hs', ht⟩ := counts_emitLiteral hs text
    have hrest := ih hs'
    rw [ht] at hrest
    rw [countFormat, if_pos rfl, if_neg hpct, hcall]
    rw [if_neg hstring]
    exact hrest
  | case7 c spec rest argIdx text s hpercent ih =>
    rw [countFormat, if_neg hpercent]
    exact ih hs

theorem counts_parsePrint (hs : Patchable s) (format : CString) :
    Counts (parsePrint tokens format s) (countPrint tokens format s.tally) :=
  .next (counts_formatLoop _ format 0 [] s hs) fun _ hs₁ => .bind fun i _ => .goto hs₁ i

theorem counts_parseAsm (hs : Patchable s) :
    Counts (parseAsm tokens s) (countAsm tokens s.tally) := by
  refine .bind fun p _ => .bind fun tok _ => .bind fun i _ => ?_
  split
  · exact .emit_goto hs emitInt80 i
  · exact .goto hs i

/-! #### Variables -/

theorem counts_declareName (hs : Patchable s) (j : Nat) {g : Nat × Parser → Option Parser}
    {f : Nat × Tally → Option Tally}
    (h : ∀ k s₁, Patchable s₁ → Counts (g (k, s₁)) (f (k, s₁.tally))) :
    Counts (declareName tokens type name j s >>= g)
      (countName tokens type name j s.tally >>= f) := by
  unfold declareName countName
  simp only [bind_eq_bind, bind_assoc]
  refine counts_declare hs fun s₁ hs₁ => .bind fun next _ => ?_
  by_cases hassign : next = .tokAssign
  · rw [if_pos hassign, if_pos hassign]
    simp only [bind_assoc]
    refine .bind fun tok _ => ?_
    have hrest := h (j + 2) _
      (hs₁.emit (emitInitializer s₁.symtab tok ++ emitMovMemEbpEax s.nextOffset))
    rw [Parser.tally_emit, length_append] at hrest
    exact hrest
  · rw [if_neg hassign, if_neg hassign]
    exact h j s₁ hs₁

theorem counts_declareLoop (k j : Nat) (s : Parser) (hs : Patchable s) :
    Counts (declareLoop tokens type k j s) (countNames tokens type k j s.tally) := by
  induction k generalizing j s with
  | zero => exact ⟨rfl, fun _ h => by cases h⟩
  | succ k ih =>
    refine .bind fun tok _ => .ite (fun _ => .result hs rfl) fun _ => ?_
    by_cases hident : tok.type = .tokIdent
    · rw [if_pos hident, if_pos hident]
      exact counts_declareName hs j fun p s₁ hs₁ => .bind fun i _ => ih i s₁ hs₁
    · rw [if_neg hident, if_neg hident]
      exact .bind fun i _ => ih i s hs

theorem counts_parseDeclaration (hs : Patchable s) (type : SymType) :
    Counts (parseDeclaration tokens fuel type s) (countDeclaration tokens fuel type s.tally) :=
  .next (counts_declareLoop _ _ s hs) fun _ hs₁ => .bind fun i _ => .goto hs₁ i

theorem counts_parseCompound (hs : Patchable s) (name : CString) (op : List Byte) :
    Counts (parseCompound tokens fuel name op s) (countCompound tokens fuel name op s.tally) := by
  unfold parseCompound countCompound
  rw [show s.tally.symtab = s.symtab from rfl]
  cases symtabLookup s.symtab name with
  | none => exact .goto hs _
  | some sym =>
    refine counts_parseAt hs _ fun done q s₁ hs₁ _ => ?_
    cases done with
    | false => exact .goto hs₁ _
    | true =>
      refine .bind fun i _ => ?_
      have hlength : (emitPushEax ++ emitMovEaxMemEbp sym.offset ++ emitPopEbx ++ op ++
          emitMovMemEbpEax sym.offset).length =
          2 + (emitMovEaxMemEbp sym.offset).length + op.length +
            (emitMovMemEbpEax sym.offset).length := by
        simp only [length_append, emitPushEax, emitPopEbx, length_singleton]
        omega
      rw [← hlength]
      exact .emit_goto hs₁ _ i

theorem length_emitSyscall (number : Word) : (emitSyscall number).length = 7 := rfl

theorem counts_parseAssignment (hs : Patchable s) (name : CString) :
    Counts (parseAssignment tokens fuel name s) (countAssignment tokens fuel name s.tally) := by
  refine counts_lookupOrDeclare hs fun sym s₁ hs₁ => ?_
  cases sym with
  | none => exact .bind fun i _ => .goto hs₁ i
  | some sym =>
    refine .bind fun rhs _ => ?_
    rw [ite_bind, ite_bind]
    refine .bind fun called _ =>
      .ite (fun _ => .bind fun next _ => .ite (fun _ => .bind fun i _ => ?_) fun _ =>
      .bind fun i _ => .goto hs₁ i) fun _ => counts_parseAt hs₁ _ fun done q s₂ hs₂ _ => ?_
    · rw [← length_emitSyscall 15, ← length_append]
      exact .emit_goto hs₁ _ i
    · cases done with
      | true => exact .bind fun i _ => .emit_goto hs₂ _ i
      | false => exact .bind fun i _ => .goto hs₂ i

theorem counts_parseCall (hs : Patchable s) (name : CString) :
    Counts (parseCall tokens name s) (countCall tokens name s.tally) := by
  refine .bind fun arg _ => .ite (fun _ => .bind fun i _ => .emit_goto hs _ i) fun _ => ?_
  rw [ite_bind, ite_bind]
  exact .bind fun exits _ => .ite (fun _ => .bind fun i _ => .emit_goto hs _ i) fun _ =>
    .bind fun i _ => .goto hs i

theorem counts_parseNamed (hs : Patchable s) (name : CString) :
    Counts (parseNamed tokens fuel name s) (countNamed tokens fuel name s.tally) := by
  refine .bind fun next _ => ?_
  cases emitCompound next with
  | some op => exact counts_parseCompound hs name op
  | none =>
    exact .ite (fun _ => counts_parseAssignment hs name) fun _ =>
      .ite (fun _ => counts_parseCall hs name)
      fun _ => .goto hs _

/-! #### Bodies and their heads -/

theorem counts_parseForIncrement (hs : Patchable s) :
    Counts (parseForIncrement tokens fuel s) (countForIncrement tokens fuel s.tally) := by
  refine .ite (fun _ => .result hs rfl) fun _ => .bind fun tok _ =>
    .ite (fun _ => .result hs rfl) fun _ =>
    .bind fun next _ => .ite (fun _ => ?_) fun _ =>
      .ite (fun _ => counts_parseAt hs _ fun done _ s₁ hs₁ _ => ?_)
      fun _ => .result hs rfl
  · rw [show s.tally.symtab = s.symtab from rfl]
    cases symtabLookup s.symtab tok.str with
    | some sym => exact .emit hs _
    | none => exact .result hs rfl
  · dsimp only
    rw [show s₁.tally.symtab = s₁.symtab from rfl]
    cases symtabLookup s₁.symtab tok.str with
    | some sym =>
      cases done with
      | true => exact .emit hs₁ _
      | false => exact .result hs₁ rfl
    | none => exact .result hs₁ rfl

theorem counts_closeThen (hs : Patchable s) :
    Counts (closeThen tokens s) (countThen tokens s.tally) := by
  obtain ⟨hs₁, ht₁⟩ := hs.patch (relative s.gen.out.length (s.ctrl.jzPatch + 6)) hs.jz
  unfold closeThen
  rw [← ht₁]
  dsimp only
  generalize s.patch _ _ = s₁ at hs₁ ⊢
  refine .bind fun next _ => .ite (fun _ => ?_) fun _ =>
    .result ⟨hs₁.jz, hs₁.jmp, hs₁.prints, hs₁.frame⟩ rfl
  -- the jump over the `else` is the last of what is written
  have hemit := hs₁.emit (0xE9 :: wordBytes 0)
  have hlength : (s₁.emit (0xE9 :: wordBytes 0)).gen.out.length = s₁.gen.out.length + 5 :=
    length_append
  have htally := Parser.tally_emit { s₁ with
    ctrl :=
      { s₁.ctrl with
        elseState := 2
        jmpPatch := s₁.gen.out.length
        outerDepth := s₁.braceDepth } } (0xE9 :: wordBytes 0)
  refine .bind fun brace _ => .ite (fun _ => ?_) fun _ => ?_
  · exact .result ⟨hemit.jz, hlength.symm.le, hemit.prints, hemit.frame⟩
      (congrArg (fun t : Tally =>
        { t with braceDepth := t.braceDepth + 1 }.goto (s₁.gen.pos + 1 + 2)) htally)
  · exact .result ⟨hemit.jz, hlength.symm.le, hemit.prints, hemit.frame⟩
      (congrArg (fun t : Tally => t.goto (s₁.gen.pos + 1 + 1)) htally)

theorem counts_closeElse (hs : Patchable s) : Counts (some (closeElse s)) (some ({ s.tally with
    construct := .none
    elseState := 0
    braceDepth := s.tally.braceDepth - 1 }.skip 1)) := by
  have hclose : ∀ s₁ : Parser, Patchable s₁ ∧ s₁.tally = s.tally → Counts
      (some ({ s₁ with
        ctrl := { s₁.ctrl with type := .none, elseState := 0, jmpPatch := 0 }
        braceDepth := s₁.braceDepth - 1 }.skip 1))
      (some ({ s.tally with
        construct := .none
        elseState := 0
        braceDepth := s.tally.braceDepth - 1 }.skip 1)) := by
    rintro s₁ ⟨hs₁, ht⟩
    have hroom : 0 + 5 ≤ s₁.gen.out.length :=
      Nat.le_trans (by decide) ((Nat.le_add_left 6 _).trans hs₁.jz)
    rw [← ht]
    exact .result ⟨hs₁.jz, hroom, hs₁.prints, hs₁.frame⟩ rfl
  apply hclose
  split
  · exact hs.patch _ hs.jmp
  · exact ⟨hs, rfl⟩

theorem counts_closeLoop (hs : Patchable s) :
    Counts (closeLoop tokens fuel s) (countLoop tokens fuel s.tally) := by
  unfold closeLoop countLoop
  rw [ite_bind, ite_bind]
  refine .next (.ite (fun _ => counts_parseForIncrement hs) fun _ => .result hs rfl)
    fun s₁ hs₁ => ?_
  have hjump : Patchable (emitLoopJump s₁) := hs₁.emit _
  have htally : (emitLoopJump s₁).tally = s₁.tally.add 5 := s₁.tally_emit _
  have hclose : ∀ s₂ : Parser, Patchable s₂ ∧ s₂.tally = (emitLoopJump s₁).tally → Counts
      (some ({ s₂ with
        ctrl := { s₂.ctrl with type := .none }
        braceDepth := s₂.braceDepth - 1 }.skip 1))
      (some ({ s₁.tally.add 5 with
        construct := .none
        braceDepth := s₁.tally.braceDepth - 1 }.skip 1)) := by
    rintro s₂ ⟨hs₂, ht⟩
    refine .result ⟨hs₂.jz, hs₂.jmp, hs₂.prints, hs₂.frame⟩ ?_
    exact congrArg (fun t : Tally =>
      { t with construct := .none, braceDepth := t.braceDepth - 1 }.skip 1)
      (ht.trans htally)
  apply hclose
  split
  · exact hjump.patch _ hjump.jz
  · exact ⟨hjump, rfl⟩

theorem counts_closeBrace (hs : Patchable s) :
    Counts (closeBrace tokens fuel s) (countBrace tokens fuel s.tally) :=
  .ite (fun _ => counts_closeThen hs) fun _ => .ite (fun _ => counts_closeElse hs) fun _ =>
    .ite (fun _ => counts_closeLoop hs) fun _ => .result ⟨hs.jz, hs.jmp, hs.prints, hs.frame⟩ rfl

theorem counts_parseForInit (hs : Patchable s) :
    Counts (parseForInit tokens fuel s) (countForInit tokens fuel s.tally) := by
  refine .bind fun tok _ => .ite (fun _ => .goto hs _) fun _ => .bind fun assigns _ =>
    .ite (fun _ => counts_lookupOrDeclare hs fun sym s₁ hs₁ => ?_) fun _ =>
      .bind fun i _ => .goto hs i
  cases sym with
  | none => exact .bind fun i _ => .goto hs₁ i
  | some sym =>
    refine counts_parseAt hs₁ _ fun done q s₂ hs₂ _ => ?_
    cases done with
    | true => exact .bind fun i _ => .emit_goto hs₂ _ i
    | false => exact .bind fun i _ => .goto hs₂ i

/-- The jump over the body is the last of what is written. -/
theorem counts_test (hs : Patchable s) :
    Patchable ({ s.emit [0x85, 0xC0] with
      ctrl := { s.ctrl with jzPatch := (s.emit [0x85, 0xC0]).gen.out.length } }.emit
      (0x0F :: 0x84 :: wordBytes 0)) ∧
    ({ s.emit [0x85, 0xC0] with
      ctrl := { s.ctrl with jzPatch := (s.emit [0x85, 0xC0]).gen.out.length } }.emit
        (0x0F :: 0x84 :: wordBytes 0)).tally = s.tally.add 8 := by
  have hemit := (hs.emit [0x85, 0xC0]).emit (0x0F :: 0x84 :: wordBytes 0)
  have hlength : ((s.emit [0x85, 0xC0]).emit (0x0F :: 0x84 :: wordBytes 0)).gen.out.length =
      (s.emit [0x85, 0xC0]).gen.out.length + 6 := length_append
  refine ⟨⟨hlength.symm.le, hemit.jmp, hemit.prints, hemit.frame⟩, ?_⟩
  have htally : ((s.emit [0x85, 0xC0]).emit (0x0F :: 0x84 :: wordBytes 0)).tally =
    s.tally.add 8 := by
    rw [Parser.tally_emit, Parser.tally_emit]
    rfl
  exact htally

theorem counts_parseCondition (hs : Patchable s) (isFor : Bool) {g : Bool × Parser → Option Parser}
    {f : Bool × Tally → Option Tally}
    (h : ∀ done s₁, Patchable s₁ → Counts (g (done, s₁)) (f (done, s₁.tally))) :
    Counts (parseCondition tokens fuel isFor s >>= g)
      (countCondition tokens fuel isFor s.tally >>= f) := by
  unfold parseCondition countCondition
  simp only [bind_eq_bind, bind_assoc]
  refine .bind fun type _ => ?_
  by_cases hempty : isFor ∧ (type = .tokSemicolon ∨ type = .tokRparen)
  · rw [if_pos hempty, if_pos hempty]
    exact h true _ ⟨hs.jz, hs.jmp, hs.prints, hs.frame⟩
  rw [if_neg hempty, if_neg hempty]
  by_cases hclosed : ¬isFor ∧ type = .tokRparen
  · rw [if_pos hclosed, if_pos hclosed]
    exact h false s hs
  rw [if_neg hclosed, if_neg hclosed]
  simp only [bind_assoc]
  have hstart : Patchable { s with ctrl := { s.ctrl with loopTop := s.gen.out.length } } :=
    ⟨hs.jz, hs.jmp, hs.prints, hs.frame⟩
  refine counts_parseAt hstart _ fun done q s₁ hs₁ _ => ?_
  cases done with
  | false => exact h false s₁ hs₁
  | true =>
    simp only [Bool.not_true, Bool.false_eq_true, if_false, bind_assoc]
    cases isFor with
    | true =>
      obtain ⟨hs₂, ht₂⟩ := counts_test hs₁
      have hrest := h true _ hs₂
      rw [ht₂] at hrest
      exact .bind fun close _ => hrest
    | false =>
      refine .bind fun close _ => ?_
      by_cases hopen : ¬false = true ∧ close ≠ .tokRparen
      · rw [if_pos hopen, if_pos hopen]
        exact h false _ ⟨hs₁.jz, hs₁.jmp, hs₁.prints, hs₁.frame⟩
      · rw [if_neg hopen, if_neg hopen]
        obtain ⟨hs₂, ht₂⟩ := @counts_test (s₁.goto (q + 1)) ⟨hs₁.jz, hs₁.jmp, hs₁.prints, hs₁.frame⟩
        have hrest := h true _ hs₂
        rw [ht₂] at hrest
        exact hrest

theorem counts_parseForClauses (hs : Patchable s) :
    Counts (parseForClauses tokens s) (countForClauses tokens s.tally) := by
  unfold parseForClauses countForClauses
  rw [ite_bind, ite_bind]
  exact .bind fun i _ => .bind fun type _ => .ite
    (fun _ => .bind fun j _ => .bind fun k _ => .result ⟨hs.jz, hs.jmp, hs.prints, hs.frame⟩ rfl)
    fun _ => .bind fun k _ => .goto hs k

theorem counts_parseControl (hs : Patchable s) (type : CtrlType) :
    Counts (parseControl tokens fuel type s) (countControl tokens fuel type s.tally) := by
  refine .bind fun paren _ =>
    .ite (fun _ => .result ⟨hs.jz, hs.jmp, hs.prints, hs.frame⟩ rfl) fun _ => ?_
  dsimp only
  rw [ite_bind, ite_bind]
  have hstart : ∀ n, Patchable
      (({ s with ctrl := { s.ctrl with loopTop := s.gen.out.length } }.skip 1).skip n) := fun _ =>
    ⟨hs.jz, hs.jmp, hs.prints, hs.frame⟩
  refine .next (.ite (fun _ => counts_parseForInit (hstart 1)) fun _ =>
    .result (hstart 1) rfl) fun s₁ hs₁ =>
    counts_parseCondition hs₁ _ fun done s₂ hs₂ => ?_
  cases done with
  | false => exact .result hs₂ rfl
  | true =>
    dsimp only
    rw [ite_bind, ite_bind]
    exact .next (.ite (fun _ => counts_parseForClauses hs₂) fun _ => .result hs₂ rfl) fun s₃ hs₃ =>
      .result ⟨hs₃.jz, hs₃.jmp, hs₃.prints, hs₃.frame⟩ rfl

theorem counts_parseReturn (hs : Patchable s) :
    Counts (parseReturn tokens s) (countReturn tokens s.tally) := by
  refine .bind fun tok _ => ?_
  split
  · exact .result ⟨hs.jz, hs.jmp, hs.prints, hs.frame⟩ rfl
  · exact .goto hs _

theorem counts_parseTurn (hs : Patchable s) :
    Counts (parseTurn tokens fuel s) (countTurn tokens fuel s.tally) := by
  refine .bind fun tok _ => .bind fun head _ => ?_
  cases head with
  | some k => exact .goto hs k
  | none =>
    refine .bind fun prints _ =>
      .ite (fun _ => .bind fun format _ => counts_parsePrint hs _) fun _ =>
      .bind fun allocates _ => .ite (fun _ => .bind fun amount _ => .emit_goto hs _ _) fun _ => ?_
    cases tok.type
    case tokReturn => exact counts_parseReturn hs
    case tokIdent => exact .ite (fun _ => counts_parseAsm hs) fun _ => counts_parseNamed hs _
    case tokInt | tokChar =>
      exact .bind fun next _ => .ite (fun _ => counts_parseDeclaration hs _) fun _ => .goto hs _
    case tokRbrace => exact counts_closeBrace hs
    case tokLbrace => exact .result ⟨hs.jz, hs.jmp, hs.prints, hs.frame⟩ rfl
    case tokIf | tokWhile | tokFor => exact counts_parseControl hs _
    all_goals exact .goto hs _

end Turn

/-! ### Behind the loop -/

theorem length_patchString {out : List Byte} {p : Nat} (codeEnd stringPos : Nat)
    (h : p + 5 ≤ out.length) : (patchString codeEnd stringPos out p).length = out.length := by
  unfold patchString
  dsimp only
  split
  · exact length_patch32 _ h
  · rfl

theorem length_foldl_patchString (codeEnd stringPos : Nat) (patches : List Nat) (out : List Byte)
    (h : ∀ p ∈ patches, p + 5 ≤ out.length) :
    (patches.foldl (patchString codeEnd stringPos) out).length = out.length := by
  induction patches generalizing out with
  | nil => rfl
  | cons p patches ih =>
    have hfirst := length_patchString codeEnd stringPos (h p mem_cons_self)
    rw [foldl_cons, ih, hfirst]
    intro q hq
    rw [hfirst]
    exact h q (mem_cons_of_mem p hq)

theorem length_finish {s : Parser} (h : Patchable s) :
    (finish s).length = s.gen.out.length + 15 + s.stringTable.length := by
  obtain ⟨hpatch, htally⟩ := h.patch (BitVec.ofNat 32 (frameSize s.totalLocalSize)) h.frame
  have hpatched := hpatch.emit (emitEpilogue s.exitCode)
  have hlength : ((s.patch subEspPos (BitVec.ofNat 32 (frameSize s.totalLocalSize))).emit
      (emitEpilogue s.exitCode)).gen.out.length = s.gen.out.length + 15 := by
    have hcount := Parser.tally_emit
      (s.patch subEspPos (BitVec.ofNat 32 (frameSize s.totalLocalSize)))
      (emitEpilogue s.exitCode)
    rw [htally] at hcount
    exact congrArg Tally.bytes hcount
  have hroom : ∀ p ∈ s.printPatches, p + 5 ≤ (((s.patch subEspPos (BitVec.ofNat 32
      (frameSize s.totalLocalSize))).emit (emitEpilogue s.exitCode)).gen.out ++
        s.stringTable).length := by
    intro p hp
    rw [length_append]
    exact (hpatched.prints p hp).trans (Nat.le_add_right _ _)
  have hfinish := length_foldl_patchString ((s.patch subEspPos (BitVec.ofNat 32
    (frameSize s.totalLocalSize))).emit (emitEpilogue s.exitCode)).gen.out.length
    s.stringTable.length s.printPatches _ hroom
  refine hfinish.trans ?_
  rw [length_append, hlength]

/-! ### Whole runs -/

/-- In front of the first token: the prologue, and what earlier programs left of types and functions. -/
def Gen.start (g : Gen) : Tally :=
  { pos := 0
    bytes := 9
    lastIdentType := g.lastIdentType
    lastIdentPtrSize := g.lastIdentPtrSize
    leftIsPointer := g.leftIsPointer
    funcTable := g.funcTable
    symtab := symtabInit
    nextOffset := -4
    strings := 0
    construct := .none
    elseState := 0
    outerDepth := 0
    incPos := 0
    emptyCond := false
    braceDepth := 0 }

section Run

variable (tokens : List Token) (size fuel : Nat) (g : Gen)

def Going (s : Parser) : Prop :=
  ∃ type, typeAt tokens s.gen.pos = some type ∧ type ≠ .tokEof ∧ s.gen.out.length < guard size

def Stopped (s : Parser) : Prop :=
  ∃ type, typeAt tokens s.gen.pos = some type ∧ ¬ (type ≠ .tokEof ∧ s.gen.out.length < guard size)

inductive Reached : Parser → Prop where
  | start : Reached (initialParser g)
  | turn {s s' : Parser} (h : Reached s) (hgoing : Going tokens size s)
      (hturn : parseTurn tokens fuel s = some s') : Reached s'

/-- Nothing is written at or behind index `size`. A turn never makes the output shorter, so what it
writes is in the output behind it. -/
structure Within : Prop where
  turns : ∀ s, Reached tokens size fuel g s → s.gen.out.length ≤ size
  final : ∀ s, Reached tokens size fuel g s → Stopped tokens size s → (finish s).length ≤ size

def Tally.Going (t : Tally) : Prop :=
  ∃ type, typeAt tokens t.pos = some type ∧ type ≠ .tokEof ∧ t.bytes < guard size

def Tally.Stopped (t : Tally) : Prop :=
  ∃ type, typeAt tokens t.pos = some type ∧ ¬ (type ≠ .tokEof ∧ t.bytes < guard size)

/-- How the program is laid out, from its tokens alone: the tallies in front of its statements. -/
inductive Laid : Tally → Prop where
  | start : Laid g.start
  | turn {t t' : Tally} (h : Laid t) (hgoing : t.Going tokens size)
      (hturn : countTurn tokens fuel t = some t') : Laid t'

/-- Every statement of more than the 200 bytes that the loop keeps free fits, and so does what follows the loop:
the epilogue and the strings. -/
structure Roomy : Prop where
  turns : ∀ t t', Laid tokens size fuel g t → t.Going tokens size →
    countTurn tokens fuel t = some t' → 200 < t'.bytes - t.bytes → t'.bytes ≤ size
  final : ∀ t, Laid tokens size fuel g t → t.Stopped tokens size → t.bytes + 15 + t.strings ≤ size

variable {tokens size fuel g}

theorem Reached.patchable {s : Parser} (h : Reached tokens size fuel g s) : Patchable s := by
  induction h with
  | start =>
    exact
      { jz := by change 6 ≤ 9; decide
        jmp := by change 5 ≤ 9; decide
        prints := fun p hp => absurd hp not_mem_nil
        frame := Nat.le_refl 9 }
  | turn _ _ hturn ih => exact (counts_parseTurn ih).2 _ hturn

theorem Reached.laid {s : Parser} (h : Reached tokens size fuel g s) :
    Laid tokens size fuel g s.tally := by
  induction h with
  | start => exact .start
  | turn hreached hgoing hturn ih =>
    refine .turn ih hgoing ?_
    rw [← (counts_parseTurn hreached.patchable).1, hturn]
    rfl

theorem Laid.reached {t : Tally} (h : Laid tokens size fuel g t) :
    ∃ s, Reached tokens size fuel g s ∧ s.tally = t := by
  induction h with
  | start => exact ⟨_, .start, rfl⟩
  | turn _ hgoing hturn ih =>
    obtain ⟨s, hreached, rfl⟩ := ih
    rw [← (counts_parseTurn hreached.patchable).1] at hturn
    obtain ⟨s', hparse, rfl⟩ := map_eq_some_iff.mp hturn
    exact ⟨s', .turn hreached hgoing hparse, rfl⟩

theorem Going.room (hsize : 512 ≤ size) {s : Parser} (h : Going tokens size s) :
    s.gen.out.length + 200 ≤ size := by
  obtain ⟨type, -, -, hguard⟩ := h
  unfold guard at hguard
  omega

theorem parseLoop_reached {n : Nat} {s s' : Parser} (h : Reached tokens size fuel g s)
    (hloop : parseLoop tokens size fuel n s = some s') :
    Reached tokens size fuel g s' ∧ Stopped tokens size s' := by
  induction n generalizing s with
  | zero => cases hloop
  | succ n ih =>
    obtain ⟨type, htype, hloop⟩ := bind_eq_some_iff.mp hloop
    by_cases hgo : type ≠ .tokEof ∧ s.gen.out.length < guard size
    · rw [if_pos hgo] at hloop
      obtain ⟨s₁, hturn, hloop⟩ := bind_eq_some_iff.mp hloop
      exact ih (Reached.turn h ⟨type, htype, hgo⟩ hturn) hloop
    · rw [if_neg hgo] at hloop
      cases hloop
      exact ⟨h, type, htype, hgo⟩

theorem Within.parseCTokens {out : List Byte} (h : Within tokens size fuel g)
    (hout : parseCTokens fuel tokens size g = some out) : out.length ≤ size := by
  obtain ⟨s, hloop, rfl⟩ := map_eq_some_iff.mp hout
  obtain ⟨hreached, hstopped⟩ := parseLoop_reached Reached.start hloop
  exact h.final s hreached hstopped

end Run

section Trial

def freshGen : Gen :=
  { pos := 0
    out := []
    lastIdentType := .int
    lastIdentPtrSize := 4
    leftIsPointer := false
    funcTable := []
    relocTable := [] }

def symbolToken (type : TokenType) : Token :=
  { type := type
    str := []
    intVal := 0 }

def nameToken (name : String) : Token :=
  { type := .tokIdent
    str := cstring name
    intVal := 0 }

def numberToken (n : Int) : Token :=
  { type := .tokNumber
    str := []
    intVal := n }

end Trial

end JexOs.Tcc
