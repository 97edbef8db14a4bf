import JexOs.Proof.TccVariables

/-!
# The frame

A word is stored to every assigned and initialized variable, whatever its type, and the offset of a variable
depends on the sizes of the variables before it only.
-/

namespace JexOs.Tcc

open X86 (Byte Word wordBytes Touches Decodes)
open List Option

def Fits (syms : List Symbol) (bytes : List Byte) : Prop :=
  ∃ as, Touches .ebp bytes as ∧ Accounts syms [] as

section Fits

variable {syms : List Symbol} {bytes bytes' : List Byte} {sym : Symbol}

theorem Fits.of_touches (h : Touches .ebp bytes []) : Fits syms bytes := ⟨[], h, Accounts.nil syms⟩

theorem Fits.append (h : Fits syms bytes) (h' : Fits syms bytes') : Fits syms (bytes ++ bytes') := by
  obtain ⟨as, htouches, haccounts⟩ := h
  obtain ⟨as', htouches', haccounts'⟩ := h'
  exact ⟨as ++ as', htouches.append htouches', haccounts.append haccounts'⟩

theorem Fits.access {width : Nat} (h : Touches .ebp bytes [(BitVec.ofInt 32 sym.offset, width)])
    (hmem : sym ∈ syms) (hwidth : width ≤ symTypeSize sym.type) : Fits syms bytes := by
  refine ⟨_, h, ?_, fun x hx => absurd hx not_mem_nil⟩
  intro a ha
  rw [mem_singleton.mp ha]
  exact ⟨sym, hmem, rfl, .inl hwidth⟩

theorem Fits.of_decodes {ps : List X86.Plain} (h : Decodes bytes ps)
    (hnone : (ps.flatMap fun p => (X86.Instr.plain p).accesses .ebp) = []) : Fits syms bytes := by
  have htouches : Touches .ebp bytes _ := h.touches
  rw [hnone] at htouches
  exact Fits.of_touches htouches

theorem fits_address (syms : List Symbol) (sym : Symbol) : Fits syms (emitLeaEaxEbp sym.offset) := by
  have hdecodes : Decodes (emitLeaEaxEbp sym.offset) [.lea .eax .ebp (BitVec.ofInt 32 sym.offset)] :=
    decodes_ebp (fun field o =>
      (X86.memOperand o).map fun r => .lea (X86.regOf field) r.1 r.2) (fun _ => rfl) rfl
  exact Fits.of_decodes hdecodes rfl

theorem fits_stepChar (syms : List Symbol) (op : StepOp) : Fits syms op.emitChar := by
  refine Fits.of_decodes (decodes_stepChar op) ?_
  cases op <;> rfl

theorem fits_step (syms : List Symbol) (htype : sym.type = .int ∨ sym.type = .char) (op : StepOp) :
    Fits syms (op.emit sym) := by
  have hptr : sym.type ≠ .ptr := by
    rcases htype with h | h <;> rw [h] <;> decide
  rw [StepOp.emit_eq hptr]
  exact fits_stepChar syms op

section Variable

variable (hmem : sym ∈ syms)

include hmem

theorem fits_loadWord (htype : sym.type = .int) : Fits syms (emitMovEaxMemEbp sym.offset) :=
  Fits.access (accesses_loadWord sym) hmem (by rw [htype]; decide)

theorem fits_storeWord (htype : sym.type = .int) : Fits syms (emitMovMemEbpEax sym.offset) :=
  Fits.access (accesses_store sym) hmem (by rw [htype]; decide)

theorem fits_loadByte (htype : sym.type = .char) : Fits syms (emitMovsxEaxMem8Ebp sym.offset) := by
  have hdecodes : Decodes (emitMovsxEaxMem8Ebp sym.offset) [.movsx .eax (slot sym)] := decodes_movsx
  have htouches : Touches .ebp _ [(BitVec.ofInt 32 sym.offset, 1)] := hdecodes.touches
  exact Fits.access htouches hmem (by rw [htype]; decide)

theorem fits_storeByte (htype : sym.type = .char) : Fits syms (emitMovMemEbpAl sym.offset) := by
  have hdecodes : Decodes (emitMovMemEbpAl sym.offset) [.movByte (slot sym) .eax] := decodes_store_byte
  have htouches : Touches .ebp _ [(BitVec.ofInt 32 sym.offset, 1)] := hdecodes.touches
  exact Fits.access htouches hmem (by rw [htype]; decide)

variable (htype : sym.type = .int ∨ sym.type = .char)

include htype

theorem fits_load : Fits syms (emitLoad sym) := by
  unfold emitLoad
  by_cases hchar : sym.type = .char
  · rw [if_pos hchar]
    exact fits_loadByte hmem hchar
  · rw [if_neg hchar]
    exact fits_loadWord hmem (htype.resolve_right hchar)

theorem fits_postfix (op : StepOp) : Fits syms (emitPostfix sym op.emitChar (op.emit sym)) := by
  have hpush : Fits syms emitPushEax := Fits.of_decodes decodes_push rfl
  have hpop : Fits syms emitPopEax := Fits.of_decodes decodes_pop_eax rfl
  unfold emitPostfix
  by_cases hchar : sym.type = .char
  · have hstep := fits_stepChar syms op
    rw [if_pos hchar]
    exact ((((fits_loadByte hmem hchar).append hpush).append hstep).append
      (fits_storeByte hmem hchar)).append hpop
  · have hint := htype.resolve_right hchar
    rw [if_neg hchar]
    exact (((hpush.append (fits_loadWord hmem hint)).append (fits_step syms htype op)).append
      (fits_storeWord hmem hint)).append hpop

theorem fits_prefix (op : StepOp) : Fits syms (emitPrefix sym op.emitChar (op.emit sym)) := by
  unfold emitPrefix
  by_cases hchar : sym.type = .char
  · have hstep := fits_stepChar syms op
    have hload := fits_loadByte hmem hchar
    rw [if_pos hchar]
    exact ((hload.append hstep).append (fits_storeByte hmem hchar)).append hload
  · have hint := htype.resolve_right hchar
    have hload := fits_loadWord hmem hint
    rw [if_neg hchar]
    exact ((hload.append (fits_step syms htype op)).append (fits_storeWord hmem hint)).append hload

end Variable

theorem fits_operands : Fits syms emitOperands := Fits.of_decodes decodes_operands rfl

variable {i : X86.Instr}

theorem Fits.single (hdecode : ∀ tail, X86.decode (bytes ++ tail) = some (i, bytes.length))
    (hnone : i.accesses .ebp = []) : Fits syms bytes := by
  have htouches : Touches .ebp bytes _ := Touches.single hdecode
  rw [hnone] at htouches
  exact Fits.of_touches htouches

theorem fits_condition {b : Byte} (hdecode : ∀ tail, X86.decode ([0x0F, b, 0xC0] ++ tail) = some (i, 3))
    (hnone : i.accesses .ebp = []) : Fits syms ([0x0F, b, 0xC0] ++ emitMovzxEaxAl) :=
  (Fits.single hdecode hnone).append (Fits.single (fun _ => rfl) rfl)

theorem fits_compare {b : Byte} (hdecode : ∀ tail, X86.decode ([0x0F, b, 0xC0] ++ tail) = some (i, 3))
    (hnone : i.accesses .ebp = []) : Fits syms (emitCompare [0x0F, b, 0xC0]) := by
  have hcmp : Fits syms [0x39, 0xC8] := Fits.single (fun _ => rfl) rfl
  unfold emitCompare
  exact (fits_operands.append hcmp).append (fits_condition hdecode hnone)

theorem fits_unary (type : TokenType) : Fits syms (emitUnary type) := by
  unfold emitUnary
  split
  · exact Fits.single (fun _ => rfl) rfl
  · have hpush : Fits syms emitPushEax := Fits.of_decodes decodes_push rfl
    have hpop : Fits syms emitPopEbx := Fits.of_decodes decodes_pop_ebx rfl
    have hxor : Fits syms emitXorEaxEax := Fits.single (fun _ => rfl) rfl
    have hcmp : Fits syms emitCmpEaxEbx := Fits.single (fun _ => rfl) rfl
    have hset : Fits syms emitSeteAl := Fits.single (fun _ => rfl) rfl
    have hmovzx : Fits syms emitMovzxEaxAl := Fits.single (fun _ => rfl) rfl
    exact ((((hpush.append hxor).append hpop).append hcmp).append hset).append hmovzx
  · exact Fits.single (fun _ => rfl) rfl
  · exact Fits.of_touches Touches.nil

theorem fits_imul (v : Word) : Fits syms (emitImulEaxImm v) := by
  refine Fits.single (i := .plain (.imulImm .eax (.reg .eax) v)) (fun tail => ?_) rfl
  show some (X86.Instr.plain (.imulImm .eax (.reg .eax) (X86.joinWord _ _ _ _)), 6) = _
  rw [X86.joinWord_byteOf]
  rfl

theorem fits_call (v : Word) : Fits syms (0xE8 :: wordBytes v) := by
  refine Fits.single (i := .call v) (fun tail => ?_) rfl
  show some (X86.Instr.call (X86.joinWord _ _ _ _), 5) = _
  rw [X86.joinWord_byteOf]
  rfl

theorem fits_clean (v : Word) : Fits syms (0x81 :: 0xC4 :: wordBytes v) := by
  refine Fits.single (i := .plain (.aluImm .add (.reg .esp) v)) (fun tail => ?_) rfl
  show some (X86.Instr.plain (.aluImm .add (.reg .esp) (X86.joinWord _ _ _ _)), 6) = _
  rw [X86.joinWord_byteOf]
  rfl

theorem fits_binary (op : TokenType) (g : Gen) :
    ∃ bytes, (applyBinary op g).2.out = g.out ++ bytes ∧ Fits syms bytes := by
  have hadd : Fits syms emitAddEaxEbx := Fits.single (fun _ => rfl) rfl
  have hsetne : Fits syms emitSetneAl := Fits.single (fun _ => rfl) rfl
  have hmovzx : Fits syms emitMovzxEaxAl := Fits.single (fun _ => rfl) rfl
  have htest : Fits syms [0x85, 0xDB] := Fits.single (fun _ => rfl) rfl
  have htest' : Fits syms [0x85, 0xC0] := Fits.single (fun _ => rfl) rfl
  have hjump : Fits syms [0xEB, 0x03] := Fits.single (fun _ => rfl) rfl
  have hdiv : Fits syms [0x93, 0x99, 0xF7, 0xFB] := Fits.of_decodes decodes_div rfl
  unfold applyBinary
  split
  case h_1 => exact ⟨_, rfl, fits_operands.append (Fits.single (fun _ => rfl) rfl)⟩
  case h_2 => exact ⟨_, rfl, fits_operands.append (Fits.single (fun _ => rfl) rfl)⟩
  case h_3 =>
    split
    · split
      · exact ⟨_, append_assoc _ _ _, (fits_imul _).append hadd⟩
      · exact ⟨_, rfl, hadd⟩
    · exact ⟨_, rfl, hadd⟩
  case h_4 => exact ⟨_, rfl, fits_operands.append (Fits.single (fun _ => rfl) rfl)⟩
  case h_5 => exact ⟨_, rfl, Fits.single (fun _ => rfl) rfl⟩
  case h_6 => exact ⟨_, rfl, hdiv⟩
  case h_7 => exact ⟨_, rfl, hdiv.append (Fits.single  (fun _ => rfl) rfl)⟩
  case h_14 =>
    have hjz : Fits syms [0x74, 0x05] := Fits.single (fun _ => rfl) rfl
    have hxor : Fits syms [0x33, 0xC0] := Fits.single (fun _ => rfl) rfl
    exact ⟨_, rfl, ((((htest.append hjz).append htest').append hsetne).append hmovzx).append
      (hjump.append hxor)⟩
  case h_15 =>
    have hjnz : Fits syms [0x75, 0x05] := Fits.single (fun _ => rfl) rfl
    exact ⟨_, rfl, ((((htest.append hjnz).append htest').append hsetne).append hmovzx).append
      (hjump.append (Fits.of_touches (accesses_immediate 1)))⟩
  case h_16 => exact ⟨[], (append_nil _).symm, Fits.of_touches Touches.nil⟩
  all_goals exact ⟨_, rfl, fits_compare (fun _ => rfl) rfl⟩

def Simple (syms : List Symbol) : Prop :=
  ∀ sym ∈ syms, (sym.type = .int ∨ sym.type = .char) ∧ sym.arraySize = 0

theorem templates_fits {used : Nat} {s : Parser} (hholds : Holds syms used s) (hsimple : Simple syms) :
    Templates s.symtab (Fits syms) := by
  have hvariable : ∀ {x sym}, symtabLookup s.symtab x = some sym →
      sym ∈ syms ∧ (sym.type = .int ∨ sym.type = .char) := by
    intro x sym hlookup
    have hmem := (hholds.mem_of_lookup hlookup).1
    exact ⟨hmem, (hsimple sym hmem).1⟩
  exact
    { nil := Fits.of_touches Touches.nil
      append := Fits.append
      imm := fun v => Fits.of_touches (accesses_immediate v)
      load := fun h => fits_load (hvariable h).1 (hvariable h).2
      postInc := fun h => fits_postfix (hvariable h).1 (hvariable h).2 .inc
      postDec := fun h => fits_postfix (hvariable h).1 (hvariable h).2 .dec
      preInc := fun h => fits_prefix (hvariable h).1 (hvariable h).2 .inc
      preDec := fun h => fits_prefix (hvariable h).1 (hvariable h).2 .dec
      address := fun _ => fits_address syms _
      element := fun h hpos => by
        rw [(hsimple _ (hvariable h).1).2] at hpos
        exact absurd hpos (by decide)
      deref := Fits.single (fun _ => rfl) rfl
      unary := fits_unary
      push := Fits.of_decodes decodes_push rfl
      pop := Fits.of_decodes decodes_pop_ebx rfl
      binary := fits_binary
      call := fits_call
      clean := fits_clean }

theorem fits_compound {type : TokenType} {op : List Byte} (h : emitCompound type = some op) :
    Fits syms op := by
  unfold emitCompound at h
  have hdiv : Fits syms [0x99, 0xF7, 0xFB] := by
    have hcdq : Fits syms [0x99] := Fits.single (fun _ => rfl) rfl
    exact hcdq.append (Fits.single (fun _ => rfl) rfl)
  split at h
  · cases h
    exact Fits.single (fun _ => rfl) rfl
  · cases h
    exact Fits.single (fun _ => rfl) rfl
  · cases h
    exact Fits.single (fun _ => rfl) rfl
  · cases h
    exact hdiv
  · cases h
    exact hdiv.append (Fits.single (fun _ => rfl) rfl)
  · cases h

theorem fits_movEbx (v : Word) : Fits syms (emitMovEbxImm v) := by
  have hdecode : ∀ tail, X86.decode (emitMovEbxImm v ++ tail) =
      some (.plain (.movImm .ebx v), (emitMovEbxImm v).length) := by
    intro tail
    show some (X86.Instr.plain (.movImm .ebx (X86.joinWord _ _ _ _)), 5) = _
    rw [X86.joinWord_byteOf]
    rfl
  exact Fits.single hdecode rfl

theorem fits_syscall (number : Word) : Fits syms (emitSyscall number) :=
  (Fits.of_touches (accesses_immediate number)).append (Fits.single (fun _ => rfl) rfl)

end Fits

structure Emits (syms : List Symbol) (words : List CString) (s s' : Parser) : Prop where
  symtab : s'.symtab = s.symtab
  offset : s'.nextOffset = s.nextOffset
  total : s'.totalLocalSize = s.totalLocalSize
  strings : s'.stringTable = s.stringTable
  prints : s'.printPatches = s.printPatches
  code : ∃ code as, s'.gen.out = s.gen.out ++ code ∧ Touches .ebp code as ∧ Accounts syms words as

section Emits

variable {syms : List Symbol} {words words' : List CString} {s s' s'' : Parser} {bytes : List Byte}

theorem Emits.goto (syms : List Symbol) (s : Parser) (i : Nat) : Emits syms [] s (s.goto i) :=
  { symtab := rfl
    offset := rfl
    total := rfl
    strings := rfl
    prints := rfl
    code := ⟨[], [], (append_nil _).symm, Touches.nil, Accounts.nil syms⟩ }

theorem Emits.trans (h : Emits syms words s s') (h' : Emits syms words' s' s'') :
    Emits syms (words ++ words') s s'' := by
  obtain ⟨code, as, hout, htouches, haccounts⟩ := h.code
  obtain ⟨code', as', hout', htouches', haccounts'⟩ := h'.code
  exact
    { symtab := h'.symtab.trans h.symtab
      offset := h'.offset.trans h.offset
      total := h'.total.trans h.total
      strings := h'.strings.trans h.strings
      prints := h'.prints.trans h.prints
      code := ⟨code ++ code', as ++ as', by rw [hout', hout, append_assoc],
        htouches.append htouches', haccounts.append haccounts'⟩ }

theorem Emits.fits (h : Fits syms bytes) (s : Parser) : Emits syms [] s (s.emit bytes) := by
  obtain ⟨as, htouches, haccounts⟩ := h
  exact
    { symtab := rfl
      offset := rfl
      total := rfl
      strings := rfl
      prints := rfl
      code := ⟨bytes, as, rfl, htouches, haccounts⟩ }

theorem Emits.word {sym : Symbol} (h : Touches .ebp bytes [(BitVec.ofInt 32 sym.offset, 4)])
    (hmem : sym ∈ syms) (s : Parser) : Emits syms [sym.name] s (s.emit bytes) :=
  { symtab := rfl
    offset := rfl
    total := rfl
    strings := rfl
    prints := rfl
    code := ⟨bytes, _, rfl, h, Accounts.word hmem⟩ }

theorem Emits.holds {used : Nat} (h : Emits syms words s s') (hholds : Holds syms used s) :
    Holds syms used s' :=
  { entries := by rw [h.symtab]; exact hholds.entries
    nextFree := by rw [h.symtab]; exact hholds.nextFree
    offset := h.offset.trans hholds.offset
    total := h.total.trans hholds.total }

end Emits

def startsCall : List Token → Bool
  | f :: lp :: _ => decide (f.type = .tokIdent ∧ lp.type = .tokLparen)
  | _ => false

def startsGetpid : List Token → Bool
  | f :: lp :: rp :: _ =>
    decide (f.type = .tokIdent ∧ lp.type = .tokLparen ∧ f.str = cstring "getpid" ∧
      rp.type = .tokRparen)
  | _ => false

/-- The variables that an assignment accesses as words. A right side that starts with a call is skipped. -/
def assignedWords (x : CString) (op : TokenType) (rhs : List Token) : List CString :=
  if x = cstring "asm" then []
  else if op = .tokAssign then if startsCall rhs && !startsGetpid rhs then [] else [x]
  else [x, x]

section Turns

variable {tokens : List Token} {s s' : Parser} {t u x : Token} {ts rest : List Token}

theorem parseTurn_name (h : From tokens s.gen.pos (x :: u :: rest)) (hx : x.type = .tokIdent)
    (hu : u.type ≠ .tokLparen) (fuel : Nat) : parseTurn tokens fuel s =
      if x.str = cstring "asm" then parseAsm tokens s else parseNamed tokens fuel x.str s := by
  have hmatch : ∀ types, matchTypes tokens (s.gen.pos + 1) (.tokLparen :: types) = some false := by
    intro types
    rw [matchTypes, typeAt_from h.tail]
    exact if_neg hu
  have hhead : functionHead tokens s.gen.pos = some none :=
    functionHead_other h (by rw [hx]; decide) (by rw [hx]; decide) (by rw [hx]; decide)
  unfold parseTurn
  dsimp only
  rw [h.head, some_bind, hhead, some_bind]
  rw [hmatch, hmatch, ite_self, ite_self]
  simp only [some_bind, Bool.false_eq_true, if_false, hx, true_and]

variable {declared : CString → Prop} {semi : Token}

theorem parseAt_phrase {syms : List Symbol} {used p : Nat} (hholds : Holds syms used s) (hsimple : Simple syms)
    (hdeclared : ∀ x, declared x → ∃ sym, symtabLookup s.symtab x = some sym)
    (h : Phrase declared .expr ts) (hfrom : From tokens p (ts ++ t :: rest)) (ht : Ends t) :
    ∃ s₁, Emits syms [] s s₁ ∧ s₁.gen.pos = s.gen.pos ∧
      ∃ n, ∀ k, n ≤ k → parseAt tokens k s p = some (true, p + ts.length, s₁) := by
  obtain ⟨g, hat, n, hn⟩ := h.exprParse hdeclared (g := { s.gen with pos := p }) hfrom ht
  have hparse : exprParse tokens s.symtab n { s.gen with pos := p } = some (0, g) := hn n le_rfl
  obtain ⟨code, hout, as, htouches, haccounts⟩ := exprParse_appends (templates_fits hholds hsimple) hparse
  have hpos : g.pos = p + ts.length := by
    obtain ⟨before, hbefore, hlength⟩ := hat
    obtain ⟨before', hbefore', hlength'⟩ := hfrom.advance
    rw [hbefore] at hbefore'
    have hsame := (append_inj' hbefore' rfl).1
    rw [← hlength, ← hlength', hsame]
  refine ⟨{ s with gen := { g with pos := s.gen.pos } }, ?_, rfl, n, fun k hk => ?_⟩
  · exact
      { symtab := rfl
        offset := rfl
        total := rfl
        strings := rfl
        prints := rfl
        code := ⟨code, as, hout, htouches, haccounts⟩ }
  · have hcall : exprParse tokens s.symtab k { s.gen with pos := p } = some (0, g) := hn k hk
    unfold parseAt
    rw [hcall, some_bind]
    dsimp only
    rw [hpos]
    rfl

def inExpression (type : TokenType) : Bool :=
  match type with
  | .tokNumber | .tokIdent | .tokPlusplus | .tokMinusminus | .tokAnd | .tokLognot | .tokNot
  | .tokLparen | .tokRparen | .tokComma => true
  | _ => exprIsBinaryOp type

theorem Phrase.inExpression {kind : PhraseKind}
    (h : Phrase declared kind ts) : ∀ t ∈ ts, inExpression t.type = true := by
  have hbinary : ∀ type, exprIsBinaryOp type = true → Tcc.inExpression type = true := by
    intro type
    cases type <;> decide
  induction h with
  | num htype =>
    intro u hu
    rw [mem_singleton.mp hu, htype]
    rfl
  | var htype _ =>
    intro u hu
    rw [mem_singleton.mp hu, htype]
    rfl
  | post htype _ hop =>
    intro u hu
    rcases mem_cons.mp hu with rfl | hu
    · rw [htype]; rfl
    · rw [mem_singleton.mp hu]
      rcases hop with hop | hop <;> rw [hop] <;> rfl
  | pre hop htype _ =>
    intro u hu
    rcases mem_cons.mp hu with rfl | hu
    · rcases hop with hop | hop | hop <;> rw [hop] <;> rfl
    · rw [mem_singleton.mp hu, htype]
      rfl
  | unary hop _ ih =>
    intro u hu
    rcases mem_cons.mp hu with rfl | hu
    · simp only [mem_cons, not_mem_nil, or_false] at hop
      rcases hop with h | h | h | h | h <;> rw [h] <;> rfl
    · exact ih u hu
  | paren hlp _ hrp ih =>
    intro u hu
    rcases mem_append.mp hu with hu | hu
    · rcases mem_cons.mp hu with rfl | hu
      · rw [hlp]; rfl
      · exact ih u hu
    · rw [mem_singleton.mp hu, hrp]
      rfl
  | call htype _ hlp _ _ hrp ih =>
    intro u hu
    rcases mem_append.mp hu with hu | hu
    · rcases mem_cons.mp hu with rfl | hu
      · rw [htype]; rfl
      rcases mem_cons.mp hu with rfl | hu
      · rw [hlp]; rfl
      · exact ih u hu
    · rw [mem_singleton.mp hu, hrp]
      rfl
  | single _ ih => exact ih
  | binary _ hop _ ihl ihr =>
    intro u hu
    rcases mem_append.mp hu with hu | hu
    · exact ihl u hu
    rcases mem_cons.mp hu with rfl | hu
    · exact hbinary _ hop
    · exact ihr u hu
  | noArgs => exact fun u hu => absurd hu not_mem_nil
  | lastArg _ ih => exact ih
  | moreArgs _ hcomma _ ih ihs =>
    intro u hu
    rcases mem_append.mp hu with hu | hu
    · exact ih u hu
    rcases mem_cons.mp hu with rfl | hu
    · rw [hcomma]; rfl
    · exact ihs u hu

theorem body_of_inExpression (h : ∀ t ∈ ts, inExpression t.type = true) : Body ts := by
  intro t ht
  have htype := h t ht
  refine ⟨?_, ?_⟩
  · intro hsemi
    rw [hsemi] at htype
    cases htype
  · intro heof
    rw [heof] at htype
    cases htype

theorem emit_append (s : Parser) (bytes bytes' : List Byte) :
    s.emit (bytes ++ bytes') = (s.emit bytes).emit bytes' := by
  unfold Parser.emit Gen.emit
  rw [append_assoc]

theorem Phrase.ne_nil (h : Phrase declared .expr ts) : ts ≠ [] := by
  cases h with
  | single h => cases h <;> exact cons_ne_nil _ _
  | binary _ _ _ => exact append_ne_nil_of_right_ne_nil _ (cons_ne_nil _ _)

theorem called_eq {p : Nat} (h : Phrase declared .expr ts)
    (hsemi : semi.type = .tokSemicolon) (hfrom : From tokens p (ts ++ semi :: rest)) :
    ∃ f, tokens[p]? = some f ∧
      (if f.type = .tokIdent then
        (typeAt tokens (p + 1)).map fun type => decide (type = .tokLparen)
      else some false) = some (startsCall ts) := by
  cases ts with
  | nil => exact absurd rfl h.ne_nil
  | cons f ts =>
    refine ⟨f, hfrom.head, ?_⟩
    cases ts with
    | nil =>
      have hnext : typeAt tokens (p + 1) = some semi.type := typeAt_from hfrom.tail
      rw [hnext, hsemi]
      split <;> rfl
    | cons lp ts =>
      have hnext : typeAt tokens (p + 1) = some lp.type := typeAt_from hfrom.tail
      rw [hnext]
      unfold startsCall
      by_cases hf : f.type = .tokIdent
      · rw [if_pos hf]
        simp only [hf, true_and, map_some]
      · rw [if_neg hf]
        simp only [hf, false_and, decide_false]

theorem parseAssignment_known {name : CString} {sym : Symbol} {f : Token} {called : Bool}
    (hlookup : symtabLookup s.symtab name = some sym) (hf : tokens[s.gen.pos + 2]? = some f)
    (hcalled : (if f.type = .tokIdent then
      (typeAt tokens (s.gen.pos + 3)).map fun type => decide (type = .tokLparen)
      else some false) = some called) (fuel : Nat) :
    parseAssignment tokens fuel name s = if called then
        (typeAt tokens (s.gen.pos + 4)).bind fun type =>
          if f.str = cstring "getpid" ∧ type = .tokRparen then
            (skipIf tokens .tokSemicolon (s.gen.pos + 5)).bind fun i =>
              some ((s.emit (emitSyscall 15 ++ emitMovMemEbpEax sym.offset)).goto i)
          else (skipStatement tokens (s.gen.pos + 2)).bind fun i => some (s.goto i)
      else
        (parseAt tokens fuel s (s.gen.pos + 2)).bind fun (done, p, s') =>
          if done then
            (skipStatement tokens p).bind fun i =>
              some ((s'.emit (emitMovMemEbpEax sym.offset)).goto i)
          else (skipStatement tokens s.gen.pos).bind fun i => some (s'.goto i) := by
  unfold parseAssignment lookupOrDeclare
  rw [hlookup]
  rw [some_bind]
  dsimp only
  rw [hf, some_bind]
  by_cases hident : f.type = .tokIdent
  · rw [if_pos hident] at hcalled ⊢
    rw [hcalled]
    rfl
  · rw [if_neg hident] at hcalled ⊢
    obtain rfl := some.inj hcalled
    rfl

theorem parseTurn_assign {op : Token} (h : From tokens s.gen.pos (x :: op :: rest))
    (hx : x.type = .tokIdent) (hop : op.type = .tokAssign) (hasm : x.str ≠ cstring "asm")
    (fuel : Nat) : parseTurn tokens fuel s = parseAssignment tokens fuel x.str s := by
  rw [parseTurn_name h hx (by rw [hop]; decide), if_neg hasm]
  unfold parseNamed
  rw [typeAt_from h.tail, some_bind, hop]
  exact if_pos rfl

def Remains (ts : List Token) : Prop :=
  ts = [] ∨ ∃ body semi, ts = body ++ [semi] ∧ (∀ t ∈ body, inExpression t.type = true) ∧
    semi.type = .tokSemicolon

theorem skipIf_remains {p : Nat} {body : List Token}
    (hfrom : From tokens p (body ++ semi :: rest)) (hbody : ∀ t ∈ body, inExpression t.type = true)
    (hsemi : semi.type = .tokSemicolon) :
    ∃ q remains, skipIf tokens .tokSemicolon p = some q ∧ From tokens q (remains ++ rest) ∧
      Remains remains ∧ remains.length ≤ body.length + 1 := by
  cases body with
  | nil =>
    refine ⟨p + 1, [], ?_, From.tail hfrom, .inl rfl, Nat.zero_le _⟩
    rw [skipIf_from _ hfrom, if_pos hsemi]
  | cons u body =>
    have hu : u.type ≠ .tokSemicolon := by
      intro hu
      have hexpr := hbody u mem_cons_self
      rw [hu] at hexpr
      exact nomatch hexpr
    refine ⟨p, u :: body ++ [semi], ?_, ?_, .inr ⟨u :: body, semi, rfl, hbody, hsemi⟩, ?_⟩
    · rw [skipIf_from _ hfrom, if_neg hu]
    · rw [append_assoc]
      exact hfrom
    · exact length_append.le

section Assignment

variable {syms : List Symbol} {used : Nat} {declared : CString → Prop} {rhs : List Token} {semi : Token}
  {sym : Symbol} (hholds : Holds syms used s) (hsimple : Simple syms) (hlocals : Locals syms)
  (hdeclared : ∀ x, declared x → x ∈ syms.map Symbol.name)

include hholds hlocals hdeclared in
theorem lookup_declared (x : CString) (hx : declared x) :
    ∃ sym ∈ syms, sym.name = x ∧ symtabLookup s.symtab x = some sym := by
  obtain ⟨sym, hmem, hlookup⟩ := hholds.lookup_of_mem hlocals (hdeclared x hx)
  exact ⟨sym, hmem, (hholds.mem_of_lookup hlookup).2, hlookup⟩

include hholds hsimple hlocals hdeclared

theorem parse_right {p : Nat} (h : Phrase declared .expr rhs)
    (hfrom : From tokens p (rhs ++ semi :: rest)) (hsemi : semi.type = .tokSemicolon) :
    (∃ s₁, Emits syms [] s s₁ ∧ s₁.gen.pos = s.gen.pos ∧
      ∃ n, ∀ k, n ≤ k → parseAt tokens k s p = some (true, p + rhs.length, s₁)) ∧
      skipStatement tokens (p + rhs.length) = some (p + rhs.length + 1) ∧
      From tokens (p + rhs.length + 1) rest := by
  have hbehind : From tokens (p + rhs.length) ([] ++ semi :: rest) := hfrom.advance
  refine ⟨parseAt_phrase hholds hsimple ?_ h hfrom ?_,
    skipStatement_from hbehind (fun t ht => absurd ht not_mem_nil) hsemi, hbehind.tail⟩
  · intro x hx
    obtain ⟨sym, -, -, hlookup⟩ := lookup_declared hholds hlocals hdeclared x hx
    exact ⟨sym, hlookup⟩
  · unfold Ends
    rw [hsemi]
    decide

variable {op : Token} (hx : x.type = .tokIdent) (hxd : declared x.str) (hasm : x.str ≠ cstring "asm")
  (h : Phrase declared .expr rhs) (hsemi : semi.type = .tokSemicolon)
  (hfrom : From tokens s.gen.pos (x :: op :: (rhs ++ semi :: rest)))

include hx hxd hasm h hsemi hfrom

theorem turns_compound {bytes : List Byte} (hop : emitCompound op.type = some bytes) :
    ∃ s', Emits syms [x.str, x.str] s s' ∧ From tokens s'.gen.pos rest ∧ Turns tokens s s' := by
  have hlparen : op.type ≠ .tokLparen := by
    intro hlparen
    rw [hlparen] at hop
    cases hop
  obtain ⟨sym, hmem, hname, hlookup⟩ := lookup_declared hholds hlocals hdeclared x.str hxd
  obtain ⟨⟨s₁, hemits, -, n, hn⟩, hskip, hbehind⟩ :=
    parse_right hholds hsimple hlocals hdeclared h hfrom.tail.tail hsemi
  -- the code behind the expression, part by part
  have hpush : Fits syms emitPushEax := Fits.of_decodes decodes_push rfl
  have hpop : Fits syms emitPopEbx := Fits.of_decodes decodes_pop_ebx rfl
  have hload := Emits.word (accesses_loadWord sym) hmem (s₁.emit emitPushEax)
  have hstore := Emits.word (accesses_store sym) hmem
    ((((s₁.emit emitPushEax).emit (emitMovEaxMemEbp sym.offset)).emit emitPopEbx).emit bytes)
  have hcode := (((hemits.trans (Emits.fits hpush s₁)).trans hload).trans
    (Emits.fits hpop _)).trans (Emits.fits (fits_compound hop) _)
  have hall := (hcode.trans hstore).trans (Emits.goto syms _ (s.gen.pos + 2 + rhs.length + 1))
  rw [hname] at hall
  refine ⟨_, hall, hbehind, n, fun k hk => ?_⟩
  rw [parseTurn_name hfrom hx hlparen, if_neg hasm]
  unfold parseNamed
  rw [typeAt_from hfrom.tail, some_bind, hop]
  unfold parseCompound
  rw [hlookup]
  dsimp only
  rw [hn k hk, some_bind]
  rw [if_pos rfl, hskip, emit_append, emit_append, emit_append, emit_append]
  rfl

theorem turns_value (hop : op.type = .tokAssign) (hcall : startsCall rhs = false) :
    ∃ s', Emits syms [x.str] s s' ∧ From tokens s'.gen.pos rest ∧ Turns tokens s s' := by
  obtain ⟨sym, hmem, hname, hlookup⟩ := lookup_declared hholds hlocals hdeclared x.str hxd
  obtain ⟨⟨s₁, hemits, -, n, hn⟩, hskip, hbehind⟩ :=
    parse_right hholds hsimple hlocals hdeclared h hfrom.tail.tail hsemi
  have hstore := Emits.word (accesses_store sym) hmem s₁
  have hall := (hemits.trans hstore).trans (Emits.goto syms _ (s.gen.pos + 2 + rhs.length + 1))
  rw [hname] at hall
  refine ⟨_, hall, hbehind, n, fun k hk => ?_⟩
  obtain ⟨f, hf, hcalled⟩ := called_eq h hsemi hfrom.tail.tail
  rw [parseTurn_assign hfrom hx hop hasm]
  rw [parseAssignment_known hlookup hf hcalled, hcall, if_neg Bool.false_ne_true, hn k hk, bind_some]
  dsimp only
  rw [if_pos rfl, hskip]
  rfl

omit hsimple in
theorem turns_skipped (hop : op.type = .tokAssign) (hcall : startsCall rhs = true)
    (hother : startsGetpid rhs = false) :
    ∃ s', Emits syms [] s s' ∧ From tokens s'.gen.pos rest ∧ Turns tokens s s' := by
  obtain ⟨sym, hmem, hname, hlookup⟩ := lookup_declared hholds hlocals hdeclared x.str hxd
  have hright : From tokens (s.gen.pos + 2) (rhs ++ semi :: rest) := hfrom.tail.tail
  have hskip := skipStatement_from hright (body_of_inExpression h.inExpression) hsemi
  obtain ⟨f, hf, hcalled⟩ := called_eq h hsemi hright
  obtain ⟨u, hu, hnot⟩ : ∃ u, typeAt tokens (s.gen.pos + 4) = some u ∧
      ¬ (f.str = cstring "getpid" ∧ u = .tokRparen) := by
    match rhs, hcall with
    | f₁ :: lp :: more, hcall =>
      obtain rfl : f₁ = f := some.inj (hright.head.symm.trans hf)
      have hthird : From tokens (s.gen.pos + 4) (more ++ semi :: rest) := hright.tail.tail
      have hboth : f₁.type = .tokIdent ∧ lp.type = .tokLparen := of_decide_eq_true hcall
      cases more with
      | nil => exact ⟨semi.type, typeAt_from hthird, fun hand => by
        rw [hsemi] at hand
        exact nomatch hand.2⟩
      | cons u more =>
        refine ⟨u.type, typeAt_from hthird, fun hand => of_decide_eq_false hother ?_⟩
        exact ⟨hboth.1, hboth.2, hand.1, hand.2⟩
  refine ⟨_, Emits.goto syms s (s.gen.pos + 2 + rhs.length + 1), hright.advance.tail, 0, fun k _ => ?_⟩
  rw [parseTurn_assign hfrom hx hop hasm, parseAssignment_known hlookup hf hcalled, hcall, if_pos rfl,
    hu, bind_some, if_neg hnot, hskip]
  rfl

omit hsimple in
theorem turns_getpid (hop : op.type = .tokAssign) (hcall : startsCall rhs = true)
    (hgetpid : startsGetpid rhs = true) :
    ∃ s' remains, Emits syms [x.str] s s' ∧ From tokens s'.gen.pos (remains ++ rest) ∧
      Remains remains ∧ Turns tokens s s' ∧ remains.length < (x :: op :: (rhs ++ [semi])).length := by
  obtain ⟨sym, hmem, hname, hlookup⟩ := lookup_declared hholds hlocals hdeclared x.str hxd
  have hright : From tokens (s.gen.pos + 2) (rhs ++ semi :: rest) := hfrom.tail.tail
  obtain ⟨f, hf, hcalled⟩ := called_eq h hsemi hright
  have hinner := h.inExpression
  have hstore := Emits.word (accesses_store sym) hmem (s.emit (emitSyscall 15))
  have hcode := (Emits.fits (@fits_syscall syms 15) s).trans hstore
  rw [hname, ← emit_append] at hcode
  match rhs, hgetpid with
  | f₁ :: lp :: rp :: more, hgetpid =>
    obtain rfl : f₁ = f := some.inj (hright.head.symm.trans hf)
    have hall : f₁.type = .tokIdent ∧ lp.type = .tokLparen ∧ f₁.str = cstring "getpid" ∧
      rp.type = .tokRparen := of_decide_eq_true hgetpid
    have hmore : From tokens (s.gen.pos + 5) (more ++ semi :: rest) := hright.tail.tail.tail
    have hturn : ∀ k, parseTurn tokens k s =
        (skipIf tokens .tokSemicolon (s.gen.pos + 5)).bind fun i =>
          some ((s.emit (emitSyscall 15 ++ emitMovMemEbpEax sym.offset)).goto i) := by
      intro k
      have hrparen : typeAt tokens (s.gen.pos + 4) = some rp.type := typeAt_from hright.tail.tail
      rw [parseTurn_assign hfrom hx hop hasm, parseAssignment_known hlookup hf hcalled, hcall,
        if_pos rfl, hrparen, bind_some, if_pos ⟨hall.2.2.1, hall.2.2.2⟩]
    obtain ⟨q, remains, hq, hleft, hremains, hlength⟩ := skipIf_remains hmore (fun t ht =>
      hinner t (mem_cons_of_mem _ (mem_cons_of_mem _ (mem_cons_of_mem _ ht)))) hsemi
    refine ⟨_, remains, hcode.trans (Emits.goto syms _ q), hleft, hremains, ⟨0, fun k _ => ?_⟩, ?_⟩
    · rw [hturn, hq]
      rfl
    · simp only [length_cons, length_append, length_nil]
      omega

end Assignment

def Quiet (rest : List Token) : Prop :=
  ∃ front eof behind, rest = front ++ eof :: behind ∧ eof.type = .tokEof ∧
    ∀ t ∈ front, t.type ≠ .tokString ∧ t.type ≠ .tokEof

theorem Quiet.append {front : List Token} (h : Quiet rest)
    (hfront : ∀ t ∈ front, t.type ≠ .tokString ∧ t.type ≠ .tokEof) : Quiet (front ++ rest) := by
  obtain ⟨front', eof, behind, rfl, heof, hfront'⟩ := h
  exact ⟨front ++ front', eof, behind, (append_assoc _ _ _).symm, heof,
    forall_mem_append.mpr ⟨hfront, hfront'⟩⟩

theorem parseAsm_quiet {body : List Token} (hquiet : Quiet rest) (hbody : Body (t :: body))
    (hstring : ∀ u ∈ body, u.type ≠ .tokString) (hsemi : semi.type = .tokSemicolon)
    (hfrom : From tokens s.gen.pos (t :: body ++ semi :: rest)) :
    parseAsm tokens s = some (s.goto (s.gen.pos + (t :: body).length + 1)) := by
  obtain ⟨front, eof, behind, rfl, heof, hfront⟩ := hquiet
  have hahead : From tokens (s.gen.pos + 1) ((body ++ semi :: front) ++ eof :: behind) := by
    have htail : From tokens (s.gen.pos + 1) (body ++ semi :: (front ++ eof :: behind)) := hfrom.tail
    rwa [append_assoc, cons_append]
  have hskip : skipTo tokens [.tokString] (s.gen.pos + 1) =
      some (s.gen.pos + 1 + (body ++ semi :: front).length) := by
    refine skipTo_from hahead (fun u hu => ?_) (.inr heof)
    rw [mem_singleton]
    rcases mem_append.mp hu with hu | hu
    · exact ⟨hstring u hu, (hbody u (mem_cons_of_mem _ hu)).2⟩
    · rcases mem_cons.mp hu with rfl | hu
      · rw [hsemi]
        decide
      · exact hfront u hu
  have hnone : ¬ (eof.type = .tokString ∧ cstring "int $0x80" <:+: eof.str) := by
    rw [heof]
    exact fun hand => nomatch hand.1
  unfold parseAsm
  dsimp only
  rw [hskip, some_bind, hahead.advance.head, some_bind, if_neg hnone, skipStatement_from hfrom hbody hsemi]
  rfl

end Turns

end JexOs.Tcc
