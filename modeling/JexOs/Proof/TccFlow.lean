import JexOs.Proof.TccSteps
import JexOs.Lib.X86Flow

/-!
# Bodies and the jumps around them

What the compiler does at the closing brace of a body is what it would do right behind the opening brace, but for
the code in between.
-/

namespace JexOs.Tcc

open X86 (Byte Word wordBytes)

/-- From one state to the other only code was added; the open construct, the depth of the braces and the
exit code are as before. -/
structure Continues (s s' : Parser) : Prop where
  out : ∃ bytes, s'.gen.out = s.gen.out ++ bytes
  ctrl : s'.ctrl = s.ctrl
  depth : s'.braceDepth = s.braceDepth
  exit : s'.exitCode = s.exitCode

section Adds

variable {tokens : List Token} {fuel : Nat} {s s₁ s₂ : Parser}

theorem Continues.trans (h : Continues s s₁) (h' : Continues s₁ s₂) : Continues s s₂ := by
  obtain ⟨bytes, hbytes⟩ := h.out
  obtain ⟨bytes', hbytes'⟩ := h'.out
  refine ⟨⟨bytes ++ bytes', ?_⟩, h'.ctrl.trans h.ctrl, h'.depth.trans h.depth, h'.exit.trans h.exit⟩
  rw [hbytes', hbytes, List.append_assoc]

theorem continues_declare {name : CString} {type : SymType} (h : s.declare name type = some s₁) :
    Continues s s₁ := by
  obtain ⟨r, -, h⟩ := Option.bind_eq_some_iff.mp h
  cases h
  exact ⟨⟨[], (List.append_nil _).symm⟩, rfl, rfl, rfl⟩

theorem continues_plain : PlainSteps Continues where
  trans := Continues.trans
  gen h := ⟨⟨_, h⟩, rfl, rfl, rfl⟩
  declare := continues_declare

theorem continues_emitPrint (s : Parser) (text : CString) : Continues s (emitPrint s text) := by
  unfold emitPrint
  split
  · exact ⟨⟨_, rfl⟩, rfl, rfl, rfl⟩
  · exact continues_plain.refl s

theorem adds_parseReturn {type : TokenType} (htype : typeAt tokens (s.gen.pos + 1) = some type)
    (hnumber : type ≠ .tokNumber) : Leads Continues s (parseReturn tokens s) := by
  refine .bind fun tok htok => ?_
  unfold typeAt at htype
  rw [htok] at htype
  cases htype
  rw [if_neg hnumber]
  exact .result (continues_plain.goto s _)

end Adds

section Turn

variable {tokens : List Token} {fuel : Nat} {s s₁ s' : Parser} {type : TokenType}

theorem tokenAt (h : typeAt tokens s.gen.pos = some type) :
    ∃ tok, tokens[s.gen.pos]? = some tok ∧ tok.type = type := Option.map_eq_some_iff.mp h

theorem parseTurn_word (h : typeAt tokens s.gen.pos = some type)
    (hword : type ∉ [TokenType.tokInt, .tokChar, .tokVoid, .tokIdent]) :
    parseTurn tokens fuel s = match type with
      | .tokReturn => parseReturn tokens s
      | .tokRbrace => closeBrace tokens fuel s
      | .tokLbrace => some ({ s with braceDepth := s.braceDepth + 1 }.skip 1)
      | .tokIf => parseControl tokens fuel .ifThen s
      | .tokWhile => parseControl tokens fuel .whileLoop s
      | .tokFor => parseControl tokens fuel .forLoop s
      | _ => some (s.skip 1) := by
  obtain ⟨tok, htok, htype⟩ := tokenAt h
  have hhead : functionHead tokens s.gen.pos = some none := by
    unfold functionHead
    rw [h, some_bind]
    refine if_neg fun hstart => hword ?_
    rcases hstart with rfl | rfl | rfl <;> decide
  unfold parseTurn
  simp only [htok, hhead, some_bind, htype]
  cases type <;> first | rfl | exact absurd (by decide) hword

def opensNone (type : TokenType) : Bool :=
  decide (type ∉ [.tokLbrace, .tokRbrace, .tokIf, .tokWhile, .tokFor])

/-- A statement that is not compound and does not return a number. -/
def SimpleAt (tokens : List Token) (i : Nat) : Prop :=
  ∃ type, typeAt tokens i = some type ∧ opensNone type = true ∧
    (type = .tokReturn → ∃ next, typeAt tokens (i + 1) = some next ∧ next ≠ .tokNumber)

theorem adds_parseTurn (h : SimpleAt tokens s.gen.pos) : Leads Continues s (parseTurn tokens fuel s) := by
  obtain ⟨type, htype, hnone, hreturn⟩ := h
  obtain ⟨t, ht, rfl⟩ := tokenAt htype
  unfold parseTurn
  refine .bind fun tok htok => ?_
  rw [ht] at htok
  cases htok
  refine .bind fun head _ => ?_
  split
  · exact .result (continues_plain.goto s _)
  · refine .bind fun prints _ => ?_
    split
    · exact .bind fun _ _ => leads_parsePrint continues_plain continues_emitPrint
    · refine .bind fun allocates _ => ?_
      split
      · exact .bind fun _ _ => .result (continues_plain.emit_goto s _ _)
      · split
        all_goals try
          rename_i hcase
          rw [hcase] at hnone
          cases hnone
          done
        · rename_i hcase
          obtain ⟨next, hnext, hnumber⟩ := hreturn hcase
          exact adds_parseReturn hnext hnumber
        · split
          · exact leads_parseAsm continues_plain
          · exact leads_parseNamed continues_plain
        · refine .bind fun _ _ => ?_
          split
          · exact leads_parseDeclaration continues_plain
          · exact .result (continues_plain.goto s _)
        · refine .bind fun _ _ => ?_
          split
          · exact leads_parseDeclaration continues_plain
          · exact .result (continues_plain.goto s _)
        · exact .result (continues_plain.goto s _)

/-- What a statement of a body comes to: its code, or the number that a `return` records. -/
inductive Part where
  | code (bytes : List Byte)
  | ret (n : Word)
deriving DecidableEq, Repr

def Part.bytes : Part → List Byte
  | .code bytes => bytes
  | .ret _ => []

def partsCode (ps : List Part) : List Byte := ps.flatMap Part.bytes

def exitAfter (exit : Word) : List Part → Word
  | [] => exit
  | .code _ :: ps => exitAfter exit ps
  | .ret n :: ps => exitAfter n ps

structure ReturnsNumber (tokens : List Token) (i : Nat) (n : Word) : Prop where
  word : typeAt tokens i = some .tokReturn
  number : ∃ tok, tokens[i + 1]? = some tok ∧ tok.type = .tokNumber ∧ n = BitVec.ofInt 32 tok.intVal

inductive ReadsParts (tokens : List Token) (fuel : Nat) : List Part → Parser → Parser → Prop where
  | nil {s : Parser} : ReadsParts tokens fuel [] s s
  | code {s s₁ s' : Parser} {bytes : List Byte} {ps : List Part} (hsimple : SimpleAt tokens s.gen.pos)
      (hturn : parseTurn tokens fuel s = some s₁) (hout : s₁.gen.out = s.gen.out ++ bytes)
      (hrest : ReadsParts tokens fuel ps s₁ s') : ReadsParts tokens fuel (.code bytes :: ps) s s'
  | ret {s s₁ s' : Parser} {n : Word} {ps : List Part} (hreturn : ReturnsNumber tokens s.gen.pos n)
      (hturn : parseTurn tokens fuel s = some s₁) (hrest : ReadsParts tokens fuel ps s₁ s') :
      ReadsParts tokens fuel (.ret n :: ps) s s'

theorem parseTurn_return {n : Word} (h : ReturnsNumber tokens s.gen.pos n) :
    parseTurn tokens fuel s = some ({ s with exitCode := n }.skip 3) := by
  obtain ⟨tok, htok, hnumber, rfl⟩ := h.number
  rw [parseTurn_word h.word (by decide)]
  unfold parseReturn
  rw [htok, some_bind, if_pos hnumber]

def Turned (tokens : List Token) (fuel : Nat) : Parser → Parser → Prop :=
  Relation.ReflTransGen fun s s' => parseTurn tokens fuel s = some s'

theorem Turned.one (h : parseTurn tokens fuel s = some s') : Turned tokens fuel s s' :=
  Relation.ReflTransGen.single h

theorem Turned.trans (h : Turned tokens fuel s s₁) (h' : Turned tokens fuel s₁ s') :
    Turned tokens fuel s s' := Relation.ReflTransGen.trans h h'

theorem ReadsParts.turned {ps : List Part} (h : ReadsParts tokens fuel ps s s') : Turned tokens fuel s s' := by
  induction h with
  | nil => exact Relation.ReflTransGen.refl
  | code _ hturn _ _ ih => exact (Turned.one hturn).trans ih
  | ret _ hturn _ ih => exact (Turned.one hturn).trans ih

theorem ReadsParts.spec {ps : List Part} (h : ReadsParts tokens fuel ps s s') :
    s'.gen.out = s.gen.out ++ partsCode ps ∧ s'.ctrl = s.ctrl ∧ s'.braceDepth = s.braceDepth ∧
      s'.exitCode = exitAfter s.exitCode ps := by
  induction h with
  | nil => exact ⟨(List.append_nil _).symm, rfl, rfl, rfl⟩
  | @code s s₁ s' bytes ps hsimple hturn hout _ ih =>
    obtain ⟨hcode, hctrl, hdepth, hexit⟩ := ih
    have hadded := adds_parseTurn hsimple s₁ hturn
    refine ⟨?_, hctrl.trans hadded.ctrl, hdepth.trans hadded.depth, ?_⟩
    · rw [hcode, hout, List.append_assoc]
      rfl
    · rw [hexit, hadded.exit]
      rfl
  | @ret s s₁ s' n ps hreturn hturn _ ih =>
    obtain ⟨hcode, hctrl, hdepth, hexit⟩ := ih
    rw [parseTurn_return hreturn] at hturn
    cases hturn
    exact ⟨hcode, hctrl, hdepth, hexit⟩

end Turn

def emitTest : List Byte := [0x85, 0xC0]

def emitJz (distance : Word) : List Byte := 0x0F :: 0x84 :: wordBytes distance

def emitJmp (distance : Word) : List Byte := 0xE9 :: wordBytes distance

theorem length_emitJz (distance : Word) : (emitJz distance).length = 6 := rfl

theorem length_emitJmp (distance : Word) : (emitJmp distance).length = 5 := rfl

theorem relative_forward (origin n : Nat) : relative (origin + n) origin = BitVec.ofNat 32 n := by
  unfold relative
  rw [BitVec.ofNat_add, BitVec.add_comm, BitVec.add_sub_cancel]

theorem relative_back (target n : Nat) : relative target (target + n) = -BitVec.ofNat 32 n := by
  unfold relative
  rw [BitVec.ofNat_add, ← BitVec.sub_sub, BitVec.sub_self, BitVec.zero_sub]

theorem patch32_append (front back : List Byte) (old new : Word) :
    patch32 (front ++ (wordBytes old ++ back)) front.length new = front ++ (wordBytes new ++ back) := by
  have hword : (wordBytes old).length = 4 := rfl
  unfold patch32
  rw [List.take_left, ← List.drop_drop, List.drop_left, ← hword, List.drop_left, List.append_assoc]

theorem patch32_jz (front back : List Byte) (old new : Word) :
    patch32 (front ++ (emitJz old ++ back)) (front.length + 2) new = front ++ (emitJz new ++ back) := by
  have h := patch32_append (front ++ [0x0F, 0x84]) back old new
  simpa [emitJz] using h

theorem patch32_jmp (front back : List Byte) (old new : Word) :
    patch32 (front ++ (emitJmp old ++ back)) (front.length + 1) new = front ++ (emitJmp new ++ back) := by
  have h := patch32_append (front ++ [0xE9]) back old new
  simpa [emitJmp] using h

section Jumps

open X86

def tested (c : Cpu) : Cpu := c.withFlags (c.regs .eax &&& c.regs .eax) false

variable {p : Platform} {code : Word → Byte} {a rel : Word} {c : Cpu} {inside : Word → Prop}
  {t : State}

theorem decode_jz (rel : Word) (tail : List Byte) :
    decode (emitJz rel ++ tail) = some (.jcc .e rel, (emitJz rel).length) := by
  show some (Instr.jcc .e (joinWord _ _ _ _), 6) = _
  rw [joinWord_byteOf]
  rfl

theorem decode_jmp (rel : Word) (tail : List Byte) :
    decode (emitJmp rel ++ tail) = some (.jmp rel, (emitJmp rel).length) := by
  show some (Instr.jmp (joinWord _ _ _ _), 5) = _
  rw [joinWord_byteOf]
  rfl

theorem departs_test (hcode : CodeAt code a (emitTest ++ emitJz rel))
    (hinside : ∀ k, k < 3 → inside (a + BitVec.ofNat 32 k)) (hrest : Departs p code inside
      { cpu := tested c
        eip := if c.regs .eax = 0 then a + BitVec.ofNat 32 8 + rel else a + BitVec.ofNat 32 8 } t) :
    Departs p code inside { cpu := c, eip := a } t := by
  have hdecodes : Decodes emitTest [.test (.reg .eax) (.reg .eax)] := Decodes.single (by decide) fun _ => rfl
  have hzero : ((tested c).cond .e = true) = (c.regs .eax = 0) := by
    have h : (tested c).cond .e = (c.regs .eax &&& c.regs .eax == 0) := rfl
    rw [h, BitVec.and_self, beq_iff_eq]
  refine departs_straight hdecodes hcode.left (fun k hk => hinside k (Nat.lt_succ_of_lt hk)) rfl ?_
  refine Departs.step (hinside 2 (by decide))
    (Platform.step_jcc hcode.right (Nat.le_add_left 6 9) (decode_jz rel)) ?_
  have hnext : a + BitVec.ofNat 32 emitTest.length + BitVec.ofNat 32 (emitJz rel).length =
      a + BitVec.ofNat 32 8 := add_ofNat_ofNat a 2 6
  have hflags : c.withFlags (c.get (.reg .eax) &&& c.get (.reg .eax)) false = tested c := rfl
  rw [hnext, hflags]
  simp only [hzero]
  exact hrest

theorem departs_jmp (hcode : CodeAt code a (emitJmp rel)) (hinside : inside a)
    (hrest : Departs p code inside { cpu := c, eip := a + BitVec.ofNat 32 5 + rel } t) :
    Departs p code inside { cpu := c, eip := a } t :=
  Departs.step hinside (Platform.step_jmp hcode (Nat.le_add_left 5 10) (decode_jmp rel)) hrest

end Jumps

structure Head (tokens : List Token) (fuel : Nat) (word : TokenType) (s : Parser) (g : Gen)
    (test : List Byte) : Prop where
  word : typeAt tokens s.gen.pos = some word
  lparen : typeAt tokens (s.gen.pos + 1) = some .tokLparen
  first : ∃ type, typeAt tokens (s.gen.pos + 2) = some type ∧ type ≠ .tokRparen
  compiled : ∃ r, exprParse tokens s.symtab fuel { s.gen with pos := s.gen.pos + 2 } = some (r, g) ∧
    0 ≤ r
  code : g.out = s.gen.out ++ test
  rparen : typeAt tokens g.pos = some .tokRparen
  lbrace : typeAt tokens (g.pos + 1) = some .tokLbrace

def opened (type : CtrlType) (s : Parser) (g : Gen) : Parser :=
  { s with
    gen := ({ g with pos := g.pos + 1 }.emit emitTest).emit (emitJz 0)
    ctrl :=
      { s.ctrl with
        type := type
        elseState := 1
        outerDepth := s.braceDepth
        loopTop := s.gen.out.length
        jzPatch := g.out.length + 2 } }

def entered (type : CtrlType) (s : Parser) (g : Gen) : Parser :=
  { opened type s g with braceDepth := s.braceDepth + 1 }.skip 1

section Head

variable {tokens : List Token} {fuel : Nat} {s s' : Parser} {g : Gen} {test : List Byte}
  {word : TokenType}

theorem parseAt_compiled {p : Nat} {r : Int}
    (h : exprParse tokens s.symtab fuel { s.gen with pos := p } = some (r, g)) (hr : 0 ≤ r) :
    parseAt tokens fuel s p = some (true, g.pos, { s with gen := { g with pos := s.gen.pos } }) := by
  unfold parseAt
  rw [h, some_bind]
  dsimp only
  rw [decide_eq_true hr]

variable (h : Head tokens fuel word s g test)

include h

theorem Head.parseControl {type : CtrlType} (htype : type ≠ .forLoop) :
    parseControl tokens fuel type s = some (opened type s g) := by
  obtain ⟨first, hfirst, hne⟩ := h.first
  obtain ⟨r, hexpr, hr⟩ := h.compiled
  have hfor : decide (type = .forLoop) = false := decide_eq_false htype
  let s₀ : Parser := { s with ctrl := { s.ctrl with loopTop := s.gen.out.length } }
  have hat : parseAt tokens fuel (s₀.skip 2) (s.gen.pos + 2) =
      some (true, g.pos, { s₀ with gen := { g with pos := s.gen.pos + 2 } }) :=
    parseAt_compiled (s := s₀.skip 2) hexpr hr
  have hcondition : parseCondition tokens fuel false (s₀.skip 2) =
      some (true, { s₀ with
        gen := ({ g with pos := g.pos + 1 }.emit emitTest).emit (emitJz 0)
        ctrl := { s₀.ctrl with jzPatch := g.out.length + 2 } }) := by
    have hpos : (s₀.skip 2).gen.pos = s.gen.pos + 2 := rfl
    unfold parseCondition
    simp only [hpos, hfirst, some_bind, Bool.false_eq_true, false_and,
      if_false, not_false_eq_true, true_and, if_neg hne]
    have hsame : ({ (s₀.skip 2) with ctrl := { (s₀.skip 2).ctrl with
        loopTop := (s₀.skip 2).gen.out.length } } : Parser) = s₀.skip 2 := rfl
    rw [hsame, hat]
    simp only [some_bind, Bool.not_true, Bool.false_eq_true, if_false]
    have hparen : typeAt tokens (({ s₀ with gen := { g with pos := s.gen.pos + 2 } } : Parser).goto
        g.pos).gen.pos = some .tokRparen := h.rparen
    rw [hparen]
    simp only [some_bind, ne_eq, not_true_eq_false, if_false]
    have hlength : ((((({ s₀ with gen := { g with pos := s.gen.pos + 2 } } : Parser).goto
        g.pos).skip 1).emit [0x85, 0xC0])).gen.out.length = g.out.length + 2 := List.length_append
    rw [hlength]
    rfl
  unfold Tcc.parseControl
  dsimp only
  have hlparen : typeAt tokens (s₀.skip 1).gen.pos = some .tokLparen := h.lparen
  have hskip : (s₀.skip 1).skip 1 = s₀.skip 2 := rfl
  change (typeAt tokens (s₀.skip 1).gen.pos).bind _ = _
  rw [hlparen, some_bind]
  simp only [ne_eq, if_false, hfor, Bool.false_eq_true, some_bind]
  change (parseCondition tokens fuel false (s₀.skip 2)).bind _ = _
  rw [hcondition]
  rfl

theorem Head.turns {type : CtrlType}
    (htype : (word = .tokIf ∧ type = .ifThen) ∨ (word = .tokWhile ∧ type = .whileLoop)) :
    parseTurn tokens fuel s = some (opened type s g) ∧
      parseTurn tokens fuel (opened type s g) = some (entered type s g) := by
  constructor
  · rw [parseTurn_word h.word (by rcases htype with ⟨rfl, -⟩ | ⟨rfl, -⟩ <;> decide)]
    rcases htype with ⟨rfl, rfl⟩ | ⟨rfl, rfl⟩
    · exact h.parseControl (by decide)
    · exact h.parseControl (by decide)
  · exact parseTurn_word (s := opened type s g) h.lbrace (by decide)

theorem Head.entered_out (type : CtrlType) :
    (entered type s g).gen.out = s.gen.out ++ (test ++ (emitTest ++ emitJz 0)) := by
  have hout : (entered type s g).gen.out = g.out ++ emitTest ++ emitJz 0 := rfl
  rw [hout, h.code]
  simp only [List.append_assoc]

end Head

section Close

variable {tokens : List Token} {fuel : Nat} {s s' : Parser} {front body other : List Byte}

structure AtClose (tokens : List Token) (type : CtrlType) (elseState : Nat) (s : Parser)
    (front body : List Byte) : Prop where
  rbrace : typeAt tokens s.gen.pos = some .tokRbrace
  type_eq : s.ctrl.type = type
  elseState_eq : s.ctrl.elseState = elseState
  depth : s.braceDepth = s.ctrl.outerDepth + 1
  jz : s.ctrl.jzPatch = front.length
  out : s.gen.out = front ++ (emitJz 0 ++ body)

theorem AtClose.turn {type : CtrlType} {n : Nat} (h : AtClose tokens type n s front body) :
    parseTurn tokens fuel s = closeBrace tokens fuel s := parseTurn_word h.rbrace (by decide)

def patchedJz (s : Parser) : Parser :=
  s.patch (s.ctrl.jzPatch + 2) (relative s.gen.out.length (s.ctrl.jzPatch + 6))

theorem AtClose.patched {type : CtrlType} {n : Nat} (h : AtClose tokens type n s front body) :
    (patchedJz s).gen.out = front ++ (emitJz (BitVec.ofNat 32 body.length) ++ body) := by
  have hlength : s.gen.out.length = front.length + 6 + body.length := by
    rw [h.out, List.length_append, List.length_append, length_emitJz]
    omega
  have hrel : relative s.gen.out.length (s.ctrl.jzPatch + 6) = BitVec.ofNat 32 body.length := by
    rw [hlength, h.jz, relative_forward]
  show patch32 s.gen.out _ _ = _
  rw [hrel, h.jz, h.out, patch32_jz]

theorem AtClose.then_ends {type : TokenType} (h : AtClose tokens .ifThen 1 s front body)
    (hnext : typeAt tokens (s.gen.pos + 1) = some type) (hne : type ≠ .tokElse)
    (hturn : parseTurn tokens fuel s = some s') :
    s'.gen.out = front ++ (emitJz (BitVec.ofNat 32 body.length) ++ body) ∧ s'.exitCode = s.exitCode := by
  have hclose : closeThen tokens s = some ({ patchedJz s with
      ctrl := { s.ctrl with type := .none, elseState := 0 }
      braceDepth := s.braceDepth - 1 }.goto (s.gen.pos + 1)) := by
    change (typeAt tokens (s.gen.pos + 1)).bind _ = _
    rw [hnext, Option.bind_some, if_neg hne]
    rfl
  rw [h.turn] at hturn
  unfold closeBrace at hturn
  rw [if_pos ⟨h.type_eq, h.elseState_eq, h.depth⟩, hclose] at hturn
  cases hturn
  exact ⟨h.patched, rfl⟩

theorem AtClose.else_starts (h : AtClose tokens .ifThen 1 s front body)
    (helse : typeAt tokens (s.gen.pos + 1) = some .tokElse)
    (hbrace : typeAt tokens (s.gen.pos + 2) = some .tokLbrace)
    (hturn : parseTurn tokens fuel s = some s') :
    s'.gen.out = front ++ (emitJz (BitVec.ofNat 32 body.length) ++ (body ++ emitJmp 0)) ∧ s'.ctrl =
        { s.ctrl with
          elseState := 2
          jmpPatch := (front ++ (emitJz (BitVec.ofNat 32 body.length) ++ body)).length
          outerDepth := s.braceDepth } ∧
      s'.braceDepth = s.braceDepth + 1 ∧ s'.exitCode = s.exitCode := by
  have hclose : closeThen tokens s = some ({ { patchedJz s with
      ctrl :=
        { s.ctrl with
          elseState := 2
          jmpPatch := (patchedJz s).gen.out.length
          outerDepth := s.braceDepth } }.emit (emitJmp 0) with
      braceDepth := s.braceDepth + 1 }.goto (s.gen.pos + 3)) := by
    change (typeAt tokens (s.gen.pos + 1)).bind _ = _
    rw [helse, Option.bind_some, if_pos rfl]
    change (typeAt tokens (s.gen.pos + 2)).bind _ = _
    rw [hbrace, Option.bind_some, if_pos rfl]
    rfl
  rw [h.turn] at hturn
  unfold closeBrace at hturn
  rw [if_pos ⟨h.type_eq, h.elseState_eq, h.depth⟩, hclose] at hturn
  cases hturn
  refine ⟨?_, ?_, rfl, rfl⟩
  · show (patchedJz s).gen.out ++ emitJmp 0 = _
    rw [h.patched]
    simp only [List.append_assoc]
  · rw [← h.patched]
    rfl

theorem else_ends (hrbrace : typeAt tokens s.gen.pos = some .tokRbrace) (htype : s.ctrl.type = .ifThen)
    (helse : s.ctrl.elseState = 2) (hdepth : s.braceDepth = s.ctrl.outerDepth + 1)
    (hjmp : s.ctrl.jmpPatch = front.length) (hpos : 0 < front.length)
    (hout : s.gen.out = front ++ (emitJmp 0 ++ other)) (hturn : parseTurn tokens fuel s = some s') :
    s'.gen.out = front ++ (emitJmp (BitVec.ofNat 32 other.length) ++ other) ∧ s'.exitCode = s.exitCode := by
  have hlength : s.gen.out.length = front.length + 5 + other.length := by
    rw [hout, List.length_append, List.length_append, length_emitJmp]
    omega
  have hrel : relative s.gen.out.length (s.ctrl.jmpPatch + 5) = BitVec.ofNat 32 other.length := by
    rw [hlength, hjmp, relative_forward]
  have hne : s.ctrl.jmpPatch ≠ 0 := by omega
  have hfirst : ¬ (s.ctrl.type = .ifThen ∧ s.ctrl.elseState = 1 ∧
      s.braceDepth = s.ctrl.outerDepth + 1) := by
    rintro ⟨-, hone, -⟩
    rw [helse] at hone
    cases hone
  rw [parseTurn_word hrbrace (by decide)] at hturn
  unfold closeBrace at hturn
  rw [if_neg hfirst, if_pos ⟨htype, helse, hdepth⟩] at hturn
  cases hturn
  unfold closeElse
  rw [if_pos hne]
  refine ⟨?_, rfl⟩
  show patch32 s.gen.out _ _ = _
  rw [hrel, hjmp, hout, patch32_jmp]

theorem AtClose.while_ends (h : AtClose tokens .whileLoop 1 s front body) (hpos : 0 < front.length)
    {top : Nat} (htop : s.ctrl.loopTop = top) (hle : top ≤ front.length)
    (hturn : parseTurn tokens fuel s = some s') :
    s'.gen.out = front ++ (emitJz (BitVec.ofNat 32 (body.length + 5)) ++
        (body ++ emitJmp (-BitVec.ofNat 32 (front.length - top + 6 + body.length + 5)))) ∧
      s'.exitCode = s.exitCode := by
  have hfirst : ∀ n, ¬ (s.ctrl.type = .ifThen ∧ s.ctrl.elseState = n ∧
      s.braceDepth = s.ctrl.outerDepth + 1) := by
    rintro n ⟨hif, -, -⟩
    rw [h.type_eq] at hif
    cases hif
  have hlength : s.gen.out.length + 5 = top + (front.length - top + 6 + body.length + 5) := by
    rw [h.out, List.length_append, List.length_append, length_emitJz]
    omega
  have hjump : emitLoopJump s =
      s.emit (emitJmp (-BitVec.ofNat 32 (front.length - top + 6 + body.length + 5))) := by
    unfold emitLoopJump
    rw [htop, hlength, relative_back]
    rfl
  -- with the jump the body is longer, and the end as that of an `if` without `else`
  have hlonger : AtClose tokens .whileLoop 1 (emitLoopJump s) front
      (body ++ emitJmp (-BitVec.ofNat 32 (front.length - top + 6 + body.length + 5))) :=
    { rbrace := h.rbrace
      type_eq := h.type_eq
      elseState_eq := h.elseState_eq
      depth := h.depth
      jz := h.jz
      out := by
        rw [hjump]
        show s.gen.out ++ _ = _
        rw [h.out]
        simp only [List.append_assoc] }
  have hne : (emitLoopJump s).ctrl.jzPatch ≠ 0 := by
    have hsame : (emitLoopJump s).ctrl.jzPatch = s.ctrl.jzPatch := rfl
    rw [hsame, h.jz]
    omega
  have hnotfor : ¬ s.ctrl.type = .forLoop := by
    rw [h.type_eq]
    decide
  have hpatched := hlonger.patched
  rw [List.length_append, length_emitJmp] at hpatched
  rw [h.turn] at hturn
  unfold closeBrace at hturn
  rw [if_neg (hfirst 1), if_neg (hfirst 2), if_pos ⟨.inl h.type_eq, h.depth⟩] at hturn
  unfold closeLoop at hturn
  rw [if_neg hnotfor, some_bind] at hturn
  dsimp only at hturn
  rw [if_pos hne] at hturn
  cases hturn
  exact ⟨hpatched, rfl⟩

theorem Head.atClose {word : TokenType} {test : List Byte} {ps : List Part} {s₁ : Parser} {g : Gen}
    (hhead : Head tokens fuel word s g test) {type : CtrlType}
    (hbody : ReadsParts tokens fuel ps (entered type s g) s₁)
    (hrbrace : typeAt tokens s₁.gen.pos = some .tokRbrace) :
    AtClose tokens type 1 s₁ (s.gen.out ++ (test ++ emitTest)) (partsCode ps) := by
  obtain ⟨hout, hctrl, hdepth, -⟩ := hbody.spec
  have hfront : (entered type s g).ctrl.jzPatch = (s.gen.out ++ (test ++ emitTest)).length := by
    show g.out.length + 2 = _
    rw [hhead.code]
    simp only [List.length_append]
    rfl
  exact
    { rbrace := hrbrace
      type_eq := by rw [hctrl]; rfl
      elseState_eq := by rw [hctrl]; rfl
      depth := by rw [hdepth, hctrl]; rfl
      jz := by rw [hctrl, hfront]
      out := by
        rw [hout, hhead.entered_out]
        simp only [List.append_assoc] }

end Close

end JexOs.Tcc
