import JexOs.Proof.TccParse

/-!
# The code of an expression at work

The code of an expression is straight-line, leaves its value in `eax`, updates the variables as it does, and
changes nothing else of the frame.
-/

namespace JexOs.Tcc

open X86 List Option Function

/-! ### The instructions -/

def slot (sym : Symbol) : Operand := .mem .ebp (BitVec.ofInt 32 sym.offset)

def loadInstr (sym : Symbol) : Plain :=
  if sym.type = .char then .movsx .eax (slot sym) else .mov (.reg .eax) (slot sym)

def storeInstr (sym : Symbol) : Plain :=
  if sym.type = .char then .movByte (slot sym) .eax else .mov (slot sym) (.reg .eax)

def StepOp.instr : StepOp → Plain
  | .inc => .aluImm .add (.reg .eax) 1
  | .dec => .aluImm .sub (.reg .eax) 1

def postInstrs (sym : Symbol) (op : StepOp) : List Plain :=
  if sym.type = .char then
    [loadInstr sym, loadInstr sym, .push .eax, op.instr, storeInstr sym, .pop .eax]
  else [loadInstr sym, .push .eax, loadInstr sym, op.instr, storeInstr sym, .pop .eax]

def valueInstrs (c : Cond) : List Plain := [.setcc c (.reg .eax), .movzx .eax (.reg .eax)]

def UnOp.instrs : UnOp → List Plain
  | .plus => []
  | .neg => [.neg (.reg .eax)]
  | .lognot =>
    [.push .eax, .alu .xor (.reg .eax) (.reg .eax), .pop .ebx, .alu .cmp (.reg .eax) (.reg .ebx)] ++
      valueInstrs .e
  | .not => [.not (.reg .eax)]

def operandInstrs : List Plain := [.mov (.reg .ecx) (.reg .eax), .mov (.reg .eax) (.reg .ebx)]

def compareInstrs (c : Cond) : List Plain :=
  operandInstrs ++ .alu .cmp (.reg .eax) (.reg .ecx) :: valueInstrs c

def divInstrs : List Plain := [.xchg .ebx, .cdq, .idiv (.reg .ebx)]

def BinOp.instrs : BinOp → List Plain
  | .mul => [.imul .eax (.reg .ebx)]
  | .div => divInstrs
  | .mod => divInstrs ++ [.mov (.reg .eax) (.reg .edx)]
  | .add => [.alu .add (.reg .eax) (.reg .ebx)]
  | .sub => operandInstrs ++ [.alu .sub (.reg .eax) (.reg .ecx)]
  | .shl => operandInstrs ++ [.shl (.reg .eax)]
  | .shr => operandInstrs ++ [.shr (.reg .eax)]
  | .lt => compareInstrs .l
  | .gt => compareInstrs .g
  | .le => compareInstrs .le
  | .ge => compareInstrs .ge
  | .eq => compareInstrs .e
  | .ne => compareInstrs .ne

def Expr.instrs (tab : Symtab) : Expr → List Plain
  | .num n => [.movImm .eax (BitVec.ofInt 32 n)]
  | .var x => [loadInstr (symbolOf tab x)]
  | .pre op x =>
    [loadInstr (symbolOf tab x), op.instr, storeInstr (symbolOf tab x), loadInstr (symbolOf tab x)]
  | .post op x => postInstrs (symbolOf tab x) op
  | .paren e => e.instrs tab
  | .unary op e => e.instrs tab ++ op.instrs
  | .binary op l r => l.instrs tab ++ .push .eax :: (r.instrs tab ++ .pop .ebx :: op.instrs)

section Decoding

variable {sym : Symbol} {tab : Symtab}

theorem modrm_ebp (tail : List Byte) : modrm (ebpOperand sym.offset ++ tail) =
    some (0, slot sym, (ebpOperand sym.offset).length, tail) := by
  unfold ebpOperand
  split
  · show some (0, Operand.mem .ebp (joinWord _ _ _ _), 5, tail) = _
    rw [joinWord_byteOf]
    rfl
  · show some (0, Operand.mem .ebp ((BitVec.ofInt 8 sym.offset).signExtend 32), 2, tail) = _
    rw [signExtend_ofInt (by omega) (by omega)]
    rfl

theorem length_ebpOperand (offset : Int) : (ebpOperand offset).length ≤ 5 := by
  unfold ebpOperand
  split
  · exact Nat.le_refl 5
  · exact Nat.le_add_left 2 3

theorem decodeModrm_ebp {f : Nat → Operand → Option Plain} {p : Plain} (h : f 0 (slot sym) = some p)
    (tail : List Byte) : decodeModrm (ebpOperand sym.offset ++ tail) f =
      some (.plain p, (ebpOperand sym.offset).length + 1) := by
  unfold decodeModrm
  rw [modrm_ebp]
  simp only [some_bind, h]

theorem decodes_ebp {op : Byte} {p : Plain} (f : Nat → Operand → Option Plain)
    (hop : ∀ rest, decode (op :: rest) = decodeModrm rest f) (h : f 0 (slot sym) = some p) :
    Decodes (op :: ebpOperand sym.offset) [p] := by
  refine Decodes.single ?_ fun tail => ?_
  · have := length_ebpOperand sym.offset
    rw [length_cons]
    omega
  · rw [cons_append, hop, decodeModrm_ebp h]
    rfl

theorem decodes_movsx : Decodes (emitMovsxEaxMem8Ebp sym.offset) [.movsx .eax (slot sym)] := by
  refine Decodes.single ?_ fun tail => ?_
  · have := length_ebpOperand sym.offset
    unfold emitMovsxEaxMem8Ebp
    simp only [length_cons]
    omega
  · have hdecode : decode (emitMovsxEaxMem8Ebp sym.offset ++ tail) =
        (decodeModrm (ebpOperand sym.offset ++ tail) fun field o =>
          (byteOperand o).map fun o => .movsx (regOf field) o).map fun r => (r.1, r.2 + 1) := rfl
    rw [hdecode, decodeModrm_ebp rfl]
    rfl

theorem decodes_load : Decodes (emitLoad sym) [loadInstr sym] := by
  unfold emitLoad loadInstr
  split
  · exact decodes_movsx
  · exact decodes_ebp (fun field o => some (.mov (.reg (regOf field)) o)) (fun _ => rfl) rfl

theorem decodes_store_word : Decodes (emitMovMemEbpEax sym.offset) [.mov (slot sym) (.reg .eax)] :=
  decodes_ebp (fun field o => some (.mov o (.reg (regOf field)))) (fun _ => rfl) rfl

theorem decodes_store_byte : Decodes (emitMovMemEbpAl sym.offset) [.movByte (slot sym) .eax] :=
  decodes_ebp
    (fun field o => do
      let o ← byteOperand o
      if field < 4 then some (.movByte o (regOf field)) else none)
    (fun _ => rfl) rfl

theorem decodes_immediate (imm : Word) : Decodes (emitMovEaxImm imm) [.movImm .eax imm] := by
  refine Decodes.single (Nat.le_add_left 5 10) fun tail => ?_
  show some (Instr.plain (.movImm .eax (joinWord _ _ _ _)), 5) = _
  rw [joinWord_byteOf]
  rfl

theorem decodes_add (imm : Word) : Decodes (emitAddEaxImm imm) [.aluImm .add (.reg .eax) imm] := by
  refine Decodes.single (Nat.le_add_left 5 10) fun tail => ?_
  show some (Instr.plain (.aluImm .add (.reg .eax) (joinWord _ _ _ _)), 5) = _
  rw [joinWord_byteOf]
  rfl

theorem decodes_push : Decodes emitPushEax [.push .eax] :=
  Decodes.single (by decide) fun _ => rfl

theorem decodes_pop_eax : Decodes emitPopEax [.pop .eax] :=
  Decodes.single (by decide) fun _ => rfl

theorem decodes_pop_ebx : Decodes emitPopEbx [.pop .ebx] :=
  Decodes.single (by decide) fun _ => rfl

theorem decodes_stepChar (op : StepOp) : Decodes op.emitChar [op.instr] := by
  cases op with
  | inc => exact decodes_add 1
  | dec => exact Decodes.single (by decide) fun _ => rfl

theorem StepOp.emit_eq (hptr : sym.type ≠ .ptr) (op : StepOp) : op.emit sym = op.emitChar := by
  have hbase : hasBaseType sym = false := decide_eq_false fun h => hptr h.1
  cases op with
  | inc => simp only [StepOp.emit, StepOp.emitChar, emitIncrement, hbase, Bool.false_eq_true, if_false]
  | dec => simp only [StepOp.emit, StepOp.emitChar, emitDecrement, hbase, Bool.false_eq_true, if_false]

theorem decodes_pre (hptr : sym.type ≠ .ptr) (op : StepOp) : Decodes (emitPrefix sym op.emitChar (op.emit sym))
      [loadInstr sym, op.instr, storeInstr sym, loadInstr sym] := by
  have hload : Decodes (emitLoad sym) [loadInstr sym] := decodes_load
  have hstep := decodes_stepChar op
  rw [StepOp.emit_eq hptr]
  unfold emitPrefix storeInstr
  unfold emitLoad at hload
  split
  · rw [if_pos ‹_›] at hload
    exact ((hload.append hstep).append decodes_store_byte).append hload
  · rw [if_neg ‹_›] at hload
    exact ((hload.append hstep).append decodes_store_word).append hload

theorem decodes_post (hptr : sym.type ≠ .ptr) (op : StepOp) :
    Decodes (emitLoad sym ++ emitPostfix sym op.emitChar (op.emit sym)) (postInstrs sym op) := by
  have hload : Decodes (emitLoad sym) [loadInstr sym] := decodes_load
  have hstep := decodes_stepChar op
  rw [StepOp.emit_eq hptr]
  unfold emitPostfix postInstrs storeInstr
  unfold emitLoad at hload ⊢
  by_cases hchar : sym.type = .char
  · simp only [if_pos hchar] at hload ⊢
    exact hload.append ((((hload.append decodes_push).append hstep).append
      decodes_store_byte).append decodes_pop_eax)
  · simp only [if_neg hchar] at hload ⊢
    exact hload.append ((((decodes_push.append hload).append hstep).append
      decodes_store_word).append decodes_pop_eax)

theorem decodes_value {c : Cond} {b : Byte} (h : ∀ tail, decode ([0x0F, b, 0xC0] ++ tail) =
      some (.plain (.setcc c (.reg .eax)), 3)) : Decodes ([0x0F, b, 0xC0] ++ emitMovzxEaxAl) (valueInstrs c) :=
  Decodes.cons (by simp) h (Decodes.single (by decide) fun _ => rfl)

theorem decodes_operands : Decodes emitOperands operandInstrs :=
  Decodes.cons (b := [0x89, 0xC1]) (by decide) (fun _ => rfl)
    (Decodes.single (by decide) fun _ => rfl)

theorem decodes_compare {c : Cond} {b : Byte} (h : ∀ tail, decode ([0x0F, b, 0xC0] ++ tail) =
      some (.plain (.setcc c (.reg .eax)), 3)) : Decodes (emitCompare [0x0F, b, 0xC0]) (compareInstrs c) := by
  have hcmp : Decodes [0x39, 0xC8] [.alu .cmp (.reg .eax) (.reg .ecx)] :=
    Decodes.single (by decide) fun _ => rfl
  have hall := (decodes_operands.append hcmp).append (decodes_value h)
  unfold emitCompare
  exact hall

theorem decodes_div : Decodes [0x93, 0x99, 0xF7, 0xFB] divInstrs :=
  Decodes.cons (b := [0x93]) (by decide) (fun _ => rfl)
    (Decodes.cons (b := [0x99]) (by decide) (fun _ => rfl)
      (Decodes.single (by decide) fun _ => rfl))

theorem decodes_binary (op : BinOp) : Decodes op.emit op.instrs := by
  cases op with
  | mul => exact Decodes.single (by decide) fun _ => rfl
  | div => exact decodes_div
  | mod => exact decodes_div.append (Decodes.single (by decide) fun _ => rfl)
  | add => exact Decodes.single (by decide) fun _ => rfl
  | sub => exact decodes_operands.append (Decodes.single (by decide) fun _ => rfl)
  | shl => exact decodes_operands.append (Decodes.single (by decide) fun _ => rfl)
  | shr => exact decodes_operands.append (Decodes.single (by decide) fun _ => rfl)
  | lt | gt | le | ge | eq | ne => exact decodes_compare fun _ => rfl

theorem decodes_unary (op : UnOp) : Decodes (emitUnary op.token) op.instrs := by
  cases op with
  | plus => exact Decodes.nil
  | neg => exact Decodes.single (by decide) fun _ => rfl
  | lognot =>
    have hxor : Decodes emitXorEaxEax [.alu .xor (.reg .eax) (.reg .eax)] :=
      Decodes.single (by decide) fun _ => rfl
    have hcmp : Decodes emitCmpEaxEbx [.alu .cmp (.reg .eax) (.reg .ebx)] :=
      Decodes.single (by decide) fun _ => rfl
    have hvalue : Decodes (emitSeteAl ++ emitMovzxEaxAl) (valueInstrs .e) := decodes_value fun _ => rfl
    exact (((decodes_push.append hxor).append decodes_pop_ebx).append hcmp).append hvalue
  | not => exact Decodes.single (by decide) fun _ => rfl

theorem Expr.decodes {e : Expr} (h : e.Declared tab) : Decodes (e.code tab) (e.instrs tab) := by
  have hplain : ∀ {x : CString} {sym : Symbol}, symtabLookup tab x = some sym →
      sym.type = .int ∨ sym.type = .char → (symbolOf tab x).type ≠ .ptr := by
    intro x sym hsym htype hptr
    rw [symbolOf_eq hsym] at hptr
    rcases htype with htype | htype <;> rw [htype] at hptr <;> cases hptr
  induction e with
  | num n => exact decodes_immediate _
  | var x => exact decodes_load
  | pre op x =>
    obtain ⟨sym, hsym, htype⟩ := h
    exact decodes_pre (hplain hsym htype) op
  | post op x =>
    obtain ⟨sym, hsym, htype⟩ := h
    exact decodes_post (hplain hsym htype) op
  | paren e ih => exact ih h
  | unary op e ih => exact (ih h).append (decodes_unary op)
  | binary op l r ihl ihr =>
    have hall := (((ihl h.1).append decodes_push).append (ihr h.2)).append decodes_pop_ebx
    have hall' := hall.append (decodes_binary op)
    simpa [Expr.code, Expr.instrs] using hall'

end Decoding

/-! ### The frame -/

def Owns (sym : Symbol) (ebp b : Word) : Prop :=
  Within (ebp + BitVec.ofInt 32 sym.offset) (symTypeSize sym.type) b

/-- The variables are of type `int` or `char`, and no two of them share a byte. -/
structure PlainTable (tab : Symtab) : Prop where
  types : ∀ {x sym}, symtabLookup tab x = some sym → sym.type = .int ∨ sym.type = .char
  disjoint : ∀ {x y sym sym'}, symtabLookup tab x = some sym → symtabLookup tab y = some sym' →
    ∀ {ebp b}, Owns sym ebp b → Owns sym' ebp b → x = y

def Owned (tab : Symtab) (ebp b : Word) : Prop :=
  ∃ x sym, symtabLookup tab x = some sym ∧ Owns sym ebp b

def valueAt (sym : Symbol) (c : Cpu) : Word :=
  if sym.type = .char then (c.getByte (slot sym)).signExtend 32 else c.get (slot sym)

def Vars (tab : Symtab) (c : Cpu) (σ : Store) : Prop :=
  ∀ x sym, symtabLookup tab x = some sym → valueAt sym c = σ x

def Clear (esp : Word) (d : Nat) (b : Word) : Prop := (b - esp).toNat + 4 * d < 2 ^ 32

structure Room (tab : Symtab) (d : Nat) (c : Cpu) : Prop where
  words : 4 * d ≤ 2 ^ 32
  clear : ∀ {b}, Owned tab (c.regs .ebp) b → Clear (c.regs .esp) d b

/-- From `c` to `c'` the stack is as before, the variables have the values `σ`, and no other byte but
those of `d` words below the stack changed. -/
structure Reaches (tab : Symtab) (d : Nat) (c c' : Cpu) (σ : Store) : Prop where
  esp : c'.regs .esp = c.regs .esp
  ebp : c'.regs .ebp = c.regs .ebp
  vars : Vars tab c' σ
  kept : ∀ {b}, Clear (c.regs .esp) d b → ¬ Owned tab (c.regs .ebp) b → c'.mem b = c.mem b

section Table

variable {tab : Symtab}

theorem symtabLookup_spec {x : CString} {sym : Symbol} (h : symtabLookup tab x = some sym) :
    sym ∈ tab.entries ∧ sym.scopeLevel ≠ -1 ∧ sym.name = x := by
  have hfound := find?_some h
  have hmem := mem_of_find?_eq_some h
  exact ⟨mem_reverse.mp hmem, of_decide_eq_true hfound⟩

theorem PlainTable.of_entries
    (htypes : ∀ sym ∈ tab.entries, sym.scopeLevel ≠ -1 → sym.type = .int ∨ sym.type = .char)
    (hdisjoint : ∀ sym ∈ tab.entries, sym.scopeLevel ≠ -1 → ∀ sym' ∈ tab.entries,
      sym'.scopeLevel ≠ -1 → ∀ ebp b, Owns sym ebp b → Owns sym' ebp b →
      sym.name = sym'.name) : PlainTable tab :=
  { types := fun hsym => htypes _ (symtabLookup_spec hsym).1 (symtabLookup_spec hsym).2.1
    disjoint := fun {x y sym sym'} hsym hsym' ebp b hb hb' => by
      obtain ⟨hmem, hlive, rfl⟩ := symtabLookup_spec hsym
      obtain ⟨hmem', hlive', rfl⟩ := symtabLookup_spec hsym'
      exact hdisjoint _ hmem hlive _ hmem' hlive' _ _ hb hb' }

end Table

section Frame

variable {tab : Symtab} {d d' : Nat} {c c' c'' : Cpu} {σ σ' : Store} {b esp : Word}

theorem Clear.mono (h : Clear esp d b) (hle : d' ≤ d) : Clear esp d' b := by
  unfold Clear at h ⊢
  omega

theorem Clear.toNat_push (h : Clear esp (d + 1) b) : (b - (esp - 4)).toNat = (b - esp).toNat + 4 := by
  have heq : b - (esp - 4) = b - esp + 4 := by
    bv_omega
  have hfour : (4 : Word).toNat = 4 := rfl
  unfold Clear at h
  rw [heq, BitVec.toNat_add, hfour]
  exact Nat.mod_eq_of_lt (by omega)

theorem Clear.push (h : Clear esp (d + 1) b) : Clear (esp - 4) d b := by
  have := h.toNat_push
  unfold Clear at h ⊢
  omega

theorem Clear.not_within (h : Clear esp (d + 1) b) : ¬ Within (esp - 4) 4 b := by
  have := h.toNat_push
  unfold Within
  omega

theorem Room.mono (h : Room tab d c) (hle : d' ≤ d) : Room tab d' c :=
  { words := by
      have := h.words
      omega
    clear := fun hb => (h.clear hb).mono hle }

theorem Room.of_reaches (h : Room tab d c) (hreaches : Reaches tab d' c c' σ) : Room tab d c' :=
  { words := h.words
    clear := fun hb => by
      rw [hreaches.ebp] at hb
      rw [hreaches.esp]
      exact h.clear hb }

theorem Reaches.mono (h : Reaches tab d c c' σ) (hle : d ≤ d') : Reaches tab d' c c' σ :=
  { esp := h.esp
    ebp := h.ebp
    vars := h.vars
    kept := fun hb hfree => h.kept (hb.mono hle) hfree }

theorem Reaches.trans (h : Reaches tab d c c' σ) (h' : Reaches tab d c' c'' σ') : Reaches tab d c c'' σ' :=
  { esp := h'.esp.trans h.esp
    ebp := h'.ebp.trans h.ebp
    vars := h'.vars
    kept := fun hb hfree => by
      rw [h'.kept (h.esp ▸ hb) (h.ebp ▸ hfree)]
      exact h.kept hb hfree }

theorem valueAt_congr (sym : Symbol) (hebp : c'.regs .ebp = c.regs .ebp)
    (hmem : ∀ {b}, Owns sym (c.regs .ebp) b → c'.mem b = c.mem b)
    (htype : sym.type = .int ∨ sym.type = .char) : valueAt sym c' = valueAt sym c := by
  unfold valueAt
  rcases htype with htype | htype
  · have hload : c'.get (slot sym) = c.get (slot sym) := by
      show load32 _ (c'.regs .ebp + _) = load32 _ (c.regs .ebp + _)
      rw [hebp]
      refine load32_congr fun b hb => hmem ?_
      unfold Owns
      rwa [htype]
    rw [hload]
    simp only [Cpu.getByte, htype, slot, reduceCtorEq, if_false]
  · have hbyte : c'.getByte (slot sym) = c.getByte (slot sym) := by
      show c'.mem (c'.regs .ebp + _) = c.mem (c.regs .ebp + _)
      rw [hebp]
      refine hmem ?_
      unfold Owns Within
      rw [htype, BitVec.sub_self]
      decide
    rw [hbyte, if_pos htype, if_pos htype]

theorem Reaches.of_mem (hvars : Vars tab c σ) (hmem : c'.mem = c.mem)
    (hesp : c'.regs .esp = c.regs .esp) (hebp : c'.regs .ebp = c.regs .ebp) : Reaches tab d c c' σ :=
  { esp := hesp
    ebp := hebp
    vars := fun x sym hsym => by
      rw [← hvars x sym hsym]
      simp only [valueAt, Cpu.getByte, Cpu.get, slot, hmem, hebp]
    kept := fun _ _ => by rw [hmem] }

/-! ### Values on the stack -/

@[simp] theorem push_regs (v : Word) {r : Reg} (h : r ≠ .esp) : (c.push v).regs r = c.regs r :=
  update_of_ne h _ _

@[simp] theorem push_esp (v : Word) : (c.push v).regs .esp = c.regs .esp - 4 := by
  simp only [Cpu.push, update_self]

theorem Vars.push (h : Vars tab c σ) (hplain : PlainTable tab) (hroom : Room tab (d + 1) c)
    (v : Word) : Vars tab (c.push v) σ := by
  intro x sym hsym
  rw [← h x sym hsym]
  refine valueAt_congr sym (push_regs v (by decide)) (fun hb => ?_) (hplain.types hsym)
  exact store32_of_not_within (hroom.clear ⟨x, sym, hsym, hb⟩).not_within

theorem Room.push (h : Room tab (d + 1) c) (v : Word) : Room tab d (c.push v) :=
  { words := by
      have := h.words
      omega
    clear := fun hb => by
      rw [push_regs v (by decide)] at hb
      rw [push_esp]
      exact (h.clear hb).push }

theorem Reaches.top (hroom : Room tab (d + 1) c) {v : Word}
    (h : Reaches tab d (c.push v) c' σ) : load32 c'.mem (c'.regs .esp) = v := by
  have hesp : c'.regs .esp = c.regs .esp - 4 := h.esp.trans (push_esp v)
  have hpushed : load32 (c.push v).mem (c.regs .esp - 4) = v := load32_store32 _ _ _
  rw [hesp]
  refine (load32_congr fun b hb => ?_).trans hpushed
  refine h.kept ?_ fun howned => ?_
  · have := hroom.words
    unfold Within at hb
    unfold Clear
    rw [push_esp]
    omega
  · exact (hroom.clear howned).not_within hb

theorem Reaches.pop (hroom : Room tab (d + 1) c) {v : Word} (h : Reaches tab d (c.push v) c' σ)
    {r : Reg} (hesp : r ≠ .esp) (hebp : r ≠ .ebp) :
    ∃ c'', exec c' (.pop r) = some c'' ∧ Reaches tab (d + 1) c c'' σ ∧ c''.regs r = v ∧
      (∀ r', r' ≠ r → r' ≠ .esp → c''.regs r' = c'.regs r') ∧ c''.mem = c'.mem := by
  have htop := h.top hroom
  have hword : c'.regs .esp + 4 = c.regs .esp := by
    rw [h.esp, push_esp, BitVec.sub_add_cancel]
  have hother : ∀ r', r' ≠ r → r' ≠ .esp →
      ((c'.setReg .esp (c'.regs .esp + 4)).setReg r (load32 c'.mem (c'.regs .esp))).regs r' =
        c'.regs r' := by
    intro r' hr hr'
    simp only [Cpu.setReg, update_of_ne hr, update_of_ne hr']
  refine ⟨_, rfl, ?_, ?_, hother, rfl⟩
  · exact
      { esp := by
          simp only [Cpu.setReg, update_of_ne hesp.symm, update_self]
          exact hword
        ebp := by
          rw [hother .ebp hebp.symm (by decide), h.ebp]
          exact push_regs v (by decide)
        vars := fun x sym hsym => by
          rw [← h.vars x sym hsym]
          simp only [valueAt, Cpu.getByte, Cpu.get, slot, hother .ebp hebp.symm (by decide)]
          rfl
        kept := fun {b} hb hfree => by
          have hpush : (c.push v).mem b = c.mem b := store32_of_not_within hb.not_within
          have hinner := h.kept (b := b) (by rw [push_esp]; exact hb.push) (by rwa [push_regs v (by decide)])
          exact hinner.trans hpush }
  · simp only [Cpu.setReg, update_self]
    exact htop

section Variables

variable {x : CString} {sym : Symbol} (hsym : symtabLookup tab x = some sym)

include hsym

theorem exec_load (hvars : Vars tab c σ) : exec c (loadInstr sym) = some (c.setReg .eax (σ x)) := by
  rw [← hvars x sym hsym]
  unfold loadInstr valueAt
  split <;> rfl

theorem Reaches.store (hplain : PlainTable tab) (hvars : Vars tab c σ) :
    ∃ c', exec c (storeInstr sym) = some c' ∧
      Reaches tab d c c' (Function.update σ x (convert sym.type (c.regs .eax))) ∧ c'.regs = c.regs := by
  -- the bytes of the variable change, and it gets the value
  obtain ⟨c', hexec, hregs, hvalue, hother⟩ : ∃ c', exec c (storeInstr sym) = some c' ∧
      c'.regs = c.regs ∧ valueAt sym c' = convert sym.type (c.regs .eax) ∧
      ∀ {b}, ¬ Owns sym (c.regs .ebp) b → c'.mem b = c.mem b := by
    rcases hplain.types hsym with htype | htype
    · refine ⟨c.set (slot sym) (c.regs .eax), ?_, rfl, ?_, fun hb => ?_⟩
      · simp only [storeInstr, htype, reduceCtorEq, if_false]
        rfl
      · simp only [valueAt, convert, htype, reduceCtorEq, if_false]
        exact load32_store32 _ _ _
      · unfold Owns at hb
        rw [htype] at hb
        exact store32_of_not_within hb
    · refine ⟨c.setByte (slot sym) (byteOf (c.regs .eax) 0), ?_, rfl, ?_, fun {b} hb => ?_⟩
      · simp only [storeInstr, htype, if_true]
        rfl
      · simp only [valueAt, convert, htype, if_true, ← byteOf_zero]
        exact congrArg (BitVec.signExtend 32) (update_self _ _ _)
      · refine store8_of_ne fun heq => hb ?_
        unfold Owns Within
        rw [htype, heq, BitVec.sub_self]
        decide
  refine ⟨c', hexec, ?_, hregs⟩
  exact
    { esp := by rw [hregs]
      ebp := by rw [hregs]
      vars := fun y sym' hsym' => by
        by_cases hy : y = x
        · subst hy
          rw [update_self]
          rwa [← some.inj (hsym.symm.trans hsym')]
        · rw [update_of_ne hy, ← hvars y sym' hsym']
          refine valueAt_congr sym' (by rw [hregs]) (fun hb => hother fun hb' => hy ?_) (hplain.types hsym')
          exact hplain.disjoint hsym' hsym hb hb'
      kept := fun _ hfree => hother fun hb => hfree ⟨x, sym, hsym, hb⟩ }

end Variables

end Frame

/-! ### Operators -/

def Computes (ps : List Plain) (c : Cpu) (v : Word) : Prop :=
  ∃ c', execAll ps c = some c' ∧ c'.regs .eax = v ∧ c'.mem = c.mem ∧
    c'.regs .esp = c.regs .esp ∧ c'.regs .ebp = c.regs .ebp

section Operators

variable {c : Cpu} {a b v : Word}

theorem execAll_cons (p : Plain) (ps : List Plain)
    (c : Cpu) : execAll (p :: ps) c = (exec c p).bind (execAll ps) := rfl

theorem exec_stepInstr (op : StepOp) : ∃ c', exec c op.instr = some c' ∧
    c'.regs = Function.update c.regs .eax (op.apply (c.regs .eax)) ∧ c'.mem = c.mem := by
  cases op <;> exact ⟨_, rfl, rfl, rfl⟩

theorem computes_value (cc : Cond) (c : Cpu) : Computes (valueInstrs cc) c (truth (c.cond cc)) := by
  refine ⟨_, rfl, ?_, rfl, rfl, rfl⟩
  simp only [Cpu.setReg, Cpu.getByte, Cpu.setByte, update_self, byteOf_joinWord_zero]
  unfold truth
  split <;> rfl

theorem computes_append {ps ps' : List Plain} {c₁ : Cpu} (h : execAll ps c = some c₁)
    (hmem : c₁.mem = c.mem) (hesp : c₁.regs .esp = c.regs .esp) (hebp : c₁.regs .ebp = c.regs .ebp)
    (h' : Computes ps' c₁ v) : Computes (ps ++ ps') c v := by
  obtain ⟨c₂, hexec, heax, hmem', hesp', hebp'⟩ := h'
  refine ⟨c₂, ?_, heax, hmem'.trans hmem, hesp'.trans hesp, hebp'.trans hebp⟩
  rw [execAll_append, h]
  exact hexec

def Cond.holds (a b : Word) : Cond → Bool
  | .e => a = b
  | .ne => a ≠ b
  | .l => a.toInt < b.toInt
  | .ge => b.toInt ≤ a.toInt
  | .le => a.toInt ≤ b.toInt
  | .g => b.toInt < a.toInt

theorem cond_compare (c : Cpu) (a b : Word) (cc : Cond) :
    (c.withFlags (a - b) (a.ssubOverflow b)).cond cc = Cond.holds a b cc := by
  have hzero : (a - b == 0) = decide (a = b) := sub_beq_zero a b
  have hless : ((a - b).msb != a.ssubOverflow b) = decide (a.toInt < b.toInt) := sign_bne_ssubOverflow a b
  have heq : ((a - b).msb == a.ssubOverflow b) = decide (b.toInt ≤ a.toInt) := by
    have hnot := congrArg Bool.not hless
    rw [bne, Bool.not_not, ← decide_not] at hnot
    rw [hnot, decide_eq_decide]
    exact Int.not_lt
  have hinj : a = b ↔ a.toInt = b.toInt := BitVec.toInt_inj.symm
  simp only [Cpu.cond, Cpu.withFlags, Cond.holds, hzero, hless, heq]
  cases cc with
  | e | l | ge => rfl
  | ne => exact (decide_not).symm
  | le =>
    rw [← Bool.decide_or, decide_eq_decide, hinj]
    omega
  | g =>
    rw [← decide_not, ← Bool.decide_and, decide_eq_decide, hinj]
    omega

theorem computes_compare (cc : Cond) (c : Cpu) :
    Computes (compareInstrs cc) c (truth (Cond.holds (c.regs .ebx) (c.regs .eax) cc)) := by
  obtain ⟨c₁, hexec, hcond, hmem, hesp, hebp⟩ : ∃ c₁,
      execAll (operandInstrs ++ [.alu .cmp (.reg .eax) (.reg .ecx)]) c = some c₁ ∧
        c₁.cond cc = Cond.holds (c.regs .ebx) (c.regs .eax) cc ∧ c₁.mem = c.mem ∧
        c₁.regs .esp = c.regs .esp ∧ c₁.regs .ebp = c.regs .ebp := by
    refine ⟨_, rfl, ?_, rfl, rfl, rfl⟩
    exact cond_compare _ _ _ _
  rw [← hcond]
  have hall := computes_append hexec hmem hesp hebp (computes_value cc c₁)
  rwa [append_assoc] at hall

theorem exec_div (hzero : c.regs .eax ≠ 0) (hover : ¬ (c.regs .ebx = BitVec.intMin 32 ∧ c.regs .eax = -1)) :
    ∃ c', execAll divInstrs c = some c' ∧ c'.regs .eax = (c.regs .ebx).sdiv (c.regs .eax) ∧
      c'.regs .edx = (c.regs .ebx).srem (c.regs .eax) ∧ c'.mem = c.mem ∧
      c'.regs .esp = c.regs .esp ∧ c'.regs .ebp = c.regs .ebp := by
  have hdiv := toInt_tdiv hover
  have hquotient := ((c.regs .ebx).sdiv (c.regs .eax)).le_toInt
  have hquotient' := BitVec.toInt_lt (x := (c.regs .ebx).sdiv (c.regs .eax))
  have hdivisor : (c.regs .eax).toInt ≠ 0 := fun h => hzero (BitVec.toInt_inj.mp h)
  -- after `xchg` and `cdq` the dividend is the left operand, as a signed number
  obtain ⟨c₁, hexec, hdividend, hebx, hmem, hesp, hebp⟩ : ∃ c₁,
      execAll [.xchg .ebx, .cdq] c = some c₁ ∧
        (c₁.regs .edx ++ c₁.regs .eax : BitVec 64).toInt = (c.regs .ebx).toInt ∧
        c₁.regs .ebx = c.regs .eax ∧ c₁.mem = c.mem ∧
        c₁.regs .esp = c.regs .esp ∧ c₁.regs .ebp = c.regs .ebp :=
    ⟨_, rfl, toInt_cdq _, rfl, rfl, rfl, rfl⟩
  let c₂ := (c₁.setReg .eax ((c.regs .ebx).sdiv (c.regs .eax))).setReg .edx
    ((c.regs .ebx).srem (c.regs .eax))
  have hidiv : exec c₁ (.idiv (.reg .ebx)) = some c₂ := by
    unfold exec
    simp only [Cpu.get, hebx, hdividend, hdiv, BitVec.ofInt_toInt, ← BitVec.toInt_srem]
    exact if_neg (by omega)
  refine ⟨c₂, ?_, rfl, rfl, hmem, hesp, hebp⟩
  show execAll ([.xchg .ebx, .cdq] ++ [.idiv (.reg .ebx)]) c = _
  rw [execAll_append, hexec, bind_some, execAll_cons, hidiv]
  rfl

theorem BinOp.computes (op : BinOp) (hebx : c.regs .ebx = a) (heax : c.regs .eax = b)
    (hv : op.apply a b = some v) : Computes op.instrs c v := by
  subst hebx heax
  cases op with
  | mul =>
    cases hv
    refine ⟨_, rfl, ?_, rfl, rfl, rfl⟩
    exact BitVec.mul_comm _ _
  | add =>
    cases hv
    refine ⟨_, rfl, ?_, rfl, rfl, rfl⟩
    exact BitVec.add_comm _ _
  | sub =>
    cases hv
    exact ⟨_, rfl, rfl, rfl, rfl, rfl⟩
  | shl =>
    obtain ⟨hcount, rfl⟩ : (c.regs .eax).toNat < 32 ∧ c.regs .ebx <<< (c.regs .eax).toNat = v := by
      simpa [BinOp.apply] using hv
    refine ⟨_, rfl, ?_, rfl, rfl, rfl⟩
    show c.regs .ebx <<< ((c.regs .eax).toNat % 32) = _
    rw [Nat.mod_eq_of_lt hcount]
  | shr =>
    obtain ⟨⟨hcount, -⟩, rfl⟩ : ((c.regs .eax).toNat < 32 ∧ 0 ≤ (c.regs .ebx).toInt) ∧
        c.regs .ebx >>> (c.regs .eax).toNat = v := by
      simpa [BinOp.apply] using hv
    refine ⟨_, rfl, ?_, rfl, rfl, rfl⟩
    show c.regs .ebx >>> ((c.regs .eax).toNat % 32) = _
    rw [Nat.mod_eq_of_lt hcount]
  | div =>
    obtain ⟨hdefined, rfl⟩ : ¬ (c.regs .eax = 0 ∨ c.regs .ebx = BitVec.intMin 32 ∧
        c.regs .eax = -1) ∧ (c.regs .ebx).sdiv (c.regs .eax) = v := by
      simpa [BinOp.apply] using hv
    obtain ⟨c', hexec, heax, -, hrest⟩ := exec_div (fun h => hdefined (.inl h)) (fun h => hdefined (.inr h))
    exact ⟨c', hexec, heax, hrest⟩
  | mod =>
    obtain ⟨hdefined, rfl⟩ : ¬ (c.regs .eax = 0 ∨ c.regs .ebx = BitVec.intMin 32 ∧
        c.regs .eax = -1) ∧ (c.regs .ebx).srem (c.regs .eax) = v := by
      simpa [BinOp.apply] using hv
    obtain ⟨c', hexec, -, hedx, hmem, hesp, hebp⟩ := exec_div (fun h => hdefined (.inl h))
      (fun h => hdefined (.inr h))
    exact computes_append hexec hmem hesp hebp ⟨_, rfl, hedx, rfl, rfl, rfl⟩
  | lt | gt | le | ge | eq | ne =>
    cases hv
    exact computes_compare _ c

end Operators

/-! ### Expressions -/

def UnOp.depth : UnOp → Nat
  | .lognot => 1
  | _ => 0

def Expr.depth : Expr → Nat
  | .num _ | .var _ | .pre _ _ => 0
  | .post _ _ => 1
  | .paren e => e.depth
  | .unary op e => max e.depth op.depth
  | .binary _ l r => max l.depth (r.depth + 1)

def Evaluates (tab : Symtab) (d : Nat) (ps : List Plain) (c : Cpu) (v : Word) (σ : Store) : Prop :=
  ∃ c', execAll ps c = some c' ∧ Reaches tab d c c' σ ∧ c'.regs .eax = v

section Evaluation

variable {tab : Symtab} {d : Nat} {c c' : Cpu} {σ σ' : Store} {v : Word} {ps ps' : List Plain}

theorem Computes.evaluates (h : Computes ps c v) (hvars : Vars tab c σ) : Evaluates tab d ps c v σ := by
  obtain ⟨c', hexec, heax, hmem, hesp, hebp⟩ := h
  exact ⟨c', hexec, Reaches.of_mem hvars hmem hesp hebp, heax⟩

theorem Evaluates.mono {d' : Nat} (h : Evaluates tab d ps c v σ)
    (hle : d ≤ d') : Evaluates tab d' ps c v σ := by
  obtain ⟨c', hexec, hreaches, heax⟩ := h
  exact ⟨c', hexec, hreaches.mono hle, heax⟩

theorem Evaluates.after (hexec : execAll ps c = some c') (h : Reaches tab d c c' σ)
    (h' : Evaluates tab d ps' c' v σ') : Evaluates tab d (ps ++ ps') c v σ' := by
  obtain ⟨c'', hexec', hreaches, heax⟩ := h'
  refine ⟨c'', ?_, h.trans hreaches, heax⟩
  rw [execAll_append, hexec]
  exact hexec'

theorem UnOp.evaluates (op : UnOp) (hplain : PlainTable tab) (hvars : Vars tab c σ)
    (hroom : Room tab op.depth c) :
    Evaluates tab op.depth op.instrs c (op.apply (c.regs .eax)) σ := by
  cases op with
  | plus => exact ⟨c, rfl, Reaches.of_mem hvars rfl rfl rfl, rfl⟩
  | neg => exact ⟨_, rfl, Reaches.of_mem hvars rfl rfl rfl, rfl⟩
  | not => exact ⟨_, rfl, Reaches.of_mem hvars rfl rfl rfl, rfl⟩
  | lognot =>
    -- `eax` is cleared while its value is on the stack
    obtain ⟨c₁, hxor, hzero, hinner⟩ : ∃ c₁,
        execAll [.push .eax, .alu .xor (.reg .eax) (.reg .eax)] c = some c₁ ∧
          c₁.regs .eax = 0 ∧ Reaches tab 0 (c.push (c.regs .eax)) c₁ σ := by
      refine ⟨_, rfl, BitVec.xor_self, ?_⟩
      exact Reaches.of_mem (hvars.push hplain hroom _) rfl rfl rfl
    obtain ⟨c₂, hpop, hreaches, hebx, hregs, -⟩ := hinner.pop hroom (r := .ebx) (by decide) (by decide)
    have heax : c₂.regs .eax = 0 := by rw [hregs .eax (by decide) (by decide), hzero]
    have hexec : execAll [.push .eax, .alu .xor (.reg .eax) (.reg .eax), .pop .ebx] c = some c₂ := by
      show execAll ([.push .eax, .alu .xor (.reg .eax) (.reg .eax)] ++ [.pop .ebx]) c = _
      rw [execAll_append, hxor, bind_some, execAll_cons, hpop]
      rfl
    obtain ⟨c₃, hcmp, hcond, hmem, hesp, hebp⟩ : ∃ c₃,
        execAll [.alu .cmp (.reg .eax) (.reg .ebx)] c₂ = some c₃ ∧
          c₃.cond .e = Cond.holds (c₂.regs .eax) (c₂.regs .ebx) .e ∧ c₃.mem = c₂.mem ∧
          c₃.regs .esp = c₂.regs .esp ∧ c₃.regs .ebp = c₂.regs .ebp := by
      refine ⟨_, rfl, ?_, rfl, rfl, rfl⟩
      exact cond_compare _ _ _ _
    have hvalue := computes_append hcmp hmem hesp hebp (computes_value .e c₃)
    have hfinal : truth (c₃.cond .e) = UnOp.lognot.apply (c.regs .eax) := by
      rw [hcond, heax, hebx]
      unfold Cond.holds UnOp.apply
      rw [BEq.comm]
      rfl
    rw [hfinal] at hvalue
    have hall := Evaluates.after hexec hreaches (hvalue.evaluates hreaches.vars)
    exact hall

theorem evaluates_bracket (hroom : Room tab 1 c) (heax : c.regs .eax = v)
    (hexec : execAll ps (c.push v) = some c') (hinner : Reaches tab 0 (c.push v) c' σ) :
    Evaluates tab 1 (.push .eax :: (ps ++ [.pop .eax])) c v σ := by
  obtain ⟨c₁, hpop, hreaches, heax', -⟩ := hinner.pop hroom (r := .eax) (by decide) (by decide)
  refine ⟨c₁, ?_, hreaches, heax'⟩
  have hpush : exec c (.push .eax) = some (c.push v) := by
    rw [← heax]
    rfl
  rw [execAll_cons, hpush, bind_some, execAll_append, hexec, bind_some, execAll_cons, hpop]
  rfl

section Variables

variable {x : CString} {sym : Symbol} (hsym : symtabLookup tab x = some sym)

include hsym

theorem evaluates_load (hvars : Vars tab c σ) : Evaluates tab d [loadInstr sym] c (σ x) σ := by
  refine ⟨c.setReg .eax (σ x), ?_, Reaches.of_mem hvars rfl rfl rfl, ?_⟩
  · rw [execAll_cons, exec_load hsym hvars]
    rfl
  · simp only [Cpu.setReg, update_self]

theorem exec_step_store (hplain : PlainTable tab) (op : StepOp) (hvars : Vars tab c σ)
    (heax : c.regs .eax = σ x) :
    ∃ c', execAll [op.instr, storeInstr sym] c = some c' ∧
      Reaches tab d c c' (Function.update σ x (convert sym.type (op.apply (σ x)))) := by
  obtain ⟨c₁, hstep, hregs, hmem⟩ := exec_stepInstr op (c := c)
  have hvalue : c₁.regs .eax = op.apply (σ x) := by
    rw [hregs, update_self, heax]
  have hquiet : Reaches tab d c c₁ σ := by
    refine Reaches.of_mem hvars hmem ?_ ?_
    · rw [hregs, update_of_ne (by decide)]
    · rw [hregs, update_of_ne (by decide)]
  obtain ⟨c₂, hstore, hreaches, -⟩ := Reaches.store (d := d) hsym hplain hquiet.vars
  rw [hvalue] at hreaches
  refine ⟨c₂, ?_, hquiet.trans hreaches⟩
  rw [execAll_cons, hstep, bind_some, execAll_cons, hstore]
  rfl

theorem evaluates_pre (hplain : PlainTable tab) (op : StepOp) (hvars : Vars tab c σ) :
    Evaluates tab d [loadInstr sym, op.instr, storeInstr sym, loadInstr sym] c
      (convert sym.type (op.apply (σ x)))
      (Function.update σ x (convert sym.type (op.apply (σ x)))) := by
  obtain ⟨c₁, hload, hreaches, heax⟩ := evaluates_load (d := d) hsym hvars
  obtain ⟨c₂, hstep, hreaches'⟩ := exec_step_store (d := d) hsym hplain op hreaches.vars heax
  have hlast := evaluates_load (d := d) hsym hreaches'.vars
  rw [update_self] at hlast
  have hall := Evaluates.after hload hreaches (Evaluates.after hstep hreaches' hlast)
  exact hall

theorem evaluates_post (hplain : PlainTable tab) (op : StepOp) (hvars : Vars tab c σ) (hroom : Room tab 1 c) :
    Evaluates tab 1 (postInstrs sym op) c (σ x) (Function.update σ x (convert sym.type (op.apply (σ x)))) := by
  obtain ⟨c₁, hload, hreaches, heax⟩ := evaluates_load (d := 1) hsym hvars
  have hroom₁ := hroom.of_reaches hreaches
  unfold postInstrs
  split
  · obtain ⟨c₂, hload', hreaches', heax'⟩ := evaluates_load (d := 1) hsym hreaches.vars
    have hroom₂ := hroom₁.of_reaches hreaches'
    have hpushed := hreaches'.vars.push hplain hroom₂ (σ x)
    obtain ⟨c₃, hstep, hinner⟩ := exec_step_store (d := 0) hsym hplain op hpushed
      ((push_regs (σ x) (by decide)).trans heax')
    have hall := Evaluates.after hload hreaches
      (Evaluates.after hload' hreaches' (evaluates_bracket hroom₂ heax' hstep hinner))
    exact hall
  · have hpushed := hreaches.vars.push hplain hroom₁ (σ x)
    obtain ⟨c₂, hload', hreaches', heax'⟩ := evaluates_load (d := 0) hsym hpushed
    obtain ⟨c₃, hstep, hinner⟩ := exec_step_store (d := 0) hsym hplain op hreaches'.vars heax'
    have hexec : execAll ([loadInstr sym] ++ [op.instr, storeInstr sym]) (c₁.push (σ x)) = some c₃ := by
      rw [execAll_append, hload']
      exact hstep
    have hall := Evaluates.after hload hreaches (evaluates_bracket hroom₁ heax hexec (hreaches'.trans hinner))
    exact hall

end Variables

theorem Expr.evaluates (hplain : PlainTable tab) {e : Expr} (hdeclared : e.Declared tab)
    (hroom : Room tab e.depth c) (hvars : Vars tab c σ) (heval : e.eval tab σ = some (v, σ')) :
    Evaluates tab e.depth (e.instrs tab) c v σ' := by
  induction e generalizing c σ v σ' with
  | num n =>
    cases heval
    exact ⟨_, rfl, Reaches.of_mem hvars rfl rfl rfl, rfl⟩
  | var x =>
    cases heval
    obtain ⟨sym, hsym, -⟩ := hdeclared
    rw [Expr.instrs, symbolOf_eq hsym]
    exact evaluates_load hsym hvars
  | pre op x =>
    cases heval
    obtain ⟨sym, hsym, -⟩ := hdeclared
    rw [Expr.instrs, symbolOf_eq hsym]
    exact evaluates_pre hsym hplain op hvars
  | post op x =>
    cases heval
    obtain ⟨sym, hsym, -⟩ := hdeclared
    rw [Expr.instrs, symbolOf_eq hsym]
    exact evaluates_post hsym hplain op hvars hroom
  | paren e ih => exact ih hdeclared hroom hvars heval
  | unary op e ih =>
    obtain ⟨⟨u, σ₁⟩, hu, heq⟩ := map_eq_some_iff.mp heval
    cases heq
    obtain ⟨c₁, hexec, hreaches, heax⟩ := ih hdeclared (hroom.mono (Nat.le_max_left _ _)) hvars hu
    have hlast := UnOp.evaluates op hplain hreaches.vars
      ((hroom.mono (Nat.le_max_right _ _)).of_reaches hreaches)
    rw [heax] at hlast
    exact Evaluates.after hexec (hreaches.mono (Nat.le_max_left _ _)) (hlast.mono (Nat.le_max_right _ _))
  | binary op l r ihl ihr =>
    obtain ⟨⟨a, σ₁⟩, ha, hrest⟩ := bind_eq_some_iff.mp heval
    obtain ⟨⟨b, σ₂⟩, hb, hlast⟩ := bind_eq_some_iff.mp hrest
    obtain ⟨w, hw, heq⟩ := bind_eq_some_iff.mp hlast
    cases heq
    have hle : r.depth + 1 ≤ (Expr.binary op l r).depth := Nat.le_max_right _ _
    obtain ⟨c₁, hexec, hreaches, heax⟩ := ihl hdeclared.1 (hroom.mono (Nat.le_max_left _ _)) hvars ha
    -- the left value is on the stack while the right operand is evaluated
    have hroom₁ := (hroom.mono hle).of_reaches hreaches
    obtain ⟨c₂, hexec₂, hinner, heax₂⟩ :=
      ihr hdeclared.2 (hroom₁.push a) (hreaches.vars.push hplain hroom₁ a) hb
    obtain ⟨c₃, hpop, hreaches₃, hebx₃, hregs₃, -⟩ := hinner.pop hroom₁ (r := .ebx) (by decide) (by decide)
    have heax₃ : c₃.regs .eax = b := by rw [hregs₃ .eax (by decide) (by decide), heax₂]
    have hop := (op.computes hebx₃ heax₃ hw).evaluates (d := (Expr.binary op l r).depth) hreaches₃.vars
    have hpush : exec c₁ (.push .eax) = some (c₁.push a) := by
      rw [← heax]
      rfl
    have hmiddle : execAll (.push .eax :: (r.instrs tab ++ [.pop .ebx])) c₁ = some c₃ := by
      rw [execAll_cons, hpush, bind_some, execAll_append, hexec₂, bind_some, execAll_cons, hpop]
      rfl
    have hall := Evaluates.after hexec (hreaches.mono (Nat.le_max_left _ _))
      (Evaluates.after hmiddle (hreaches₃.mono hle) hop)
    simpa [Expr.instrs, Expr.depth] using hall

end Evaluation

/-! ### From the tokens to the value -/

/-- The static variables in a run of the compiler without pointers: as they are initialised, or as a
call of the parser on any tokens left them. -/
inductive Statics : Gen → Prop where
  | initial {g : Gen} (h : g.lastIdentType = .int) : Statics g
  | parsed {tokens : List Token} {tab : Symtab} {fuel : Nat} {r : Int} {g g' g'' : Gen}
      (hplain : PlainTable tab) (h : Statics g) (hcall : exprParse tokens tab fuel g = some (r, g'))
      (hsame : g''.lastIdentType = g'.lastIdentType) : Statics g''

theorem PlainTable.ne_ptr {tab : Symtab} (h : PlainTable tab) {x : CString} {sym : Symbol}
    (hsym : symtabLookup tab x = some sym) : sym.type ≠ .ptr := by
  intro hptr
  rcases h.types hsym with htype | htype <;> rw [htype] at hptr <;> cases hptr

theorem Statics.ne_ptr {g : Gen} (h : Statics g) : g.lastIdentType ≠ .ptr := by
  induction h with
  | initial h =>
    rw [h]
    decide
  | parsed hplain _ hcall hsame ih =>
    rw [hsame]
    exact (neverPointer (fun hsym => hplain.ne_ptr hsym) _).expr _ _ _ ih _ _ hcall

/-- The parser reads the expression, and the code it emits evaluates the expression, wherever it lies
and from any state with the room on the stack. -/
theorem exprParse_correct {tokens ts rest : List Token} {t : Token} {tab : Symtab} {e : Expr}
    {g : Gen} (hplain : PlainTable tab) (hstatics : Statics g) (hderives : Derives e ts)
    (hdeclared : e.Declared tab) (hat : At tokens g (ts ++ t :: rest))
    (hends : ¬ Attaches t.type ∧ exprIsBinaryOp t.type = false) :
    ∃ g' bytes, Returns (fun k => exprParse tokens tab k g) (0, g') ∧
      g'.pos = g.pos + ts.length ∧ g'.out = g.out ++ bytes ∧
      ∀ code a c σ v σ', CodeAt code a bytes → Room tab e.depth c → Vars tab c σ →
      e.eval tab σ = some (v, σ') →
        ∃ n c', run code n { cpu := c, eip := a } =
            some { cpu := c', eip := a + BitVec.ofNat 32 bytes.length } ∧
          c'.regs .eax = v ∧ Reaches tab e.depth c c' σ' := by
  obtain ⟨g', hemitted, hreturns⟩ := exprParse_returns hderives hdeclared hat hstatics.ne_ptr hends.1 hends.2
  refine ⟨g', e.code tab, hreturns, hemitted.pos, hemitted.out, ?_⟩
  intro code a c σ v σ' hcode hroom hvars heval
  obtain ⟨c', hexec, hreaches, heax⟩ := Expr.evaluates hplain hdeclared hroom hvars heval
  exact ⟨_, c', run_straight (Expr.decodes hdeclared) hcode hexec, heax, hreaches⟩

section Trial

def trialSymbol (name : String) (type : SymType) (offset : Int) : Symbol :=
  { name := cstring name
    type := type
    baseType := .int
    offset := offset
    scopeLevel := 0
    arraySize := 0 }

def trialTable : Symtab :=
  { entries :=
      [trialSymbol "x" .int (-4), trialSymbol "c" .char (-5)] ++ List.replicate 254 emptySymbol
    nextFree := 2 }

def trialToken (type : TokenType) (text : String) : Token :=
  { type := type
    str := cstring text
    intVal := 0 }

def trialTokens : List Token :=
  [trialToken .tokIdent "x", trialToken .tokPlusplus "++", trialToken .tokStar "*",
    trialToken .tokMinus "-", trialToken .tokIdent "c"]

def trialExpr : Expr :=
  .binary .mul (.post .inc (cstring "x")) (.unary .neg (.var (cstring "c")))

def trialGen : Gen :=
  { pos := 0
    out := []
    lastIdentType := .int
    lastIdentPtrSize := 4
    leftIsPointer := false
    funcTable := []
    relocTable := [] }

def trialCpu : Cpu :=
  { regs := fun r => if r = .ebp then 0x2000 else if r = .esp then 0x1FF0 else 0
    flags :=
      { zero := false
        sign := false
        overflow := false }
    mem := fun a => if a = 0x1FFC then 3 else if a = 0x1FFB then 0xFE else 0 }

def storeOf (tab : Symtab) (c : Cpu) : Store := fun x => valueAt (symbolOf tab x) c

theorem vars_storeOf (tab : Symtab) (c : Cpu) : Vars tab c (storeOf tab c) := by
  intro x sym hsym
  unfold storeOf
  rw [symbolOf_eq hsym]

theorem trialTable_entries {sym : Symbol} (hmem : sym ∈ trialTable.entries) (hlive : sym.scopeLevel ≠ -1) :
    sym = trialSymbol "x" .int (-4) ∨ sym = trialSymbol "c" .char (-5) := by
  rcases mem_append.mp hmem with hmem | hmem
  · simpa using hmem
  · rw [(mem_replicate.mp hmem).2] at hlive
    exact absurd rfl hlive

theorem plainTable_trial : PlainTable trialTable := by
  refine PlainTable.of_entries (fun sym hsym hlive => ?_)
    fun sym hsym hlive sym' hsym' hlive' ebp b hb hb' => ?_
  · rcases trialTable_entries hsym hlive with rfl | rfl
    · exact .inl rfl
    · exact .inr rfl
  · have hapart : Owns (trialSymbol "x" .int (-4)) ebp b → ¬ Owns (trialSymbol "c" .char (-5)) ebp b := by
      intro hx hc
      simp only [Owns, Within, trialSymbol, symTypeSize] at hx hc
      bv_omega
    rcases trialTable_entries hsym hlive with rfl | rfl <;> rcases trialTable_entries hsym'
      hlive' with rfl | rfl
    · rfl
    · exact absurd hb' (hapart hb)
    · exact absurd hb (hapart hb')
    · rfl

theorem room_trial : Room trialTable 1 trialCpu :=
  { words := by decide
    clear := fun {b} hb => by
      obtain ⟨x, sym, hsym, hb⟩ := hb
      obtain ⟨hmem, hlive, -⟩ := symtabLookup_spec hsym
      have hebp : trialCpu.regs .ebp = 0x2000 := rfl
      have hesp : trialCpu.regs .esp = 0x1FF0 := rfl
      unfold Clear
      rcases trialTable_entries hmem hlive with rfl | rfl
      · simp only [Owns, Within, trialSymbol, symTypeSize, hebp, hesp] at hb ⊢
        bv_omega
      · simp only [Owns, Within, trialSymbol, symTypeSize, hebp, hesp] at hb ⊢
        bv_omega }

theorem derives_trial : Derives trialExpr trialTokens := by
  have hx : Derives (.post .inc (cstring "x"))
      [trialToken .tokIdent "x", trialToken .tokPlusplus "++"] :=
    Derives.post (x := trialToken .tokIdent "x") .inc rfl rfl
  have hc : Derives (.unary .neg (.var (cstring "c")))
      [trialToken .tokMinus "-", trialToken .tokIdent "c"] :=
    Derives.unary .neg rfl (Derives.var (t := trialToken .tokIdent "c") rfl) rfl
  exact Derives.binary .mul hx (by decide) rfl hc (by decide)

theorem exprParse_trial : ∃ g' bytes,
    Returns (fun k => exprParse (trialTokens ++ [trialToken .tokSemicolon ";"]) trialTable k trialGen)
      (0, g') ∧ g'.pos = 5 ∧ g'.out = bytes ∧ ∀ code a, CodeAt code a bytes →
      ∃ n c', run code n { cpu := trialCpu, eip := a } =
          some { cpu := c', eip := a + BitVec.ofNat 32 bytes.length } ∧
        c'.regs .eax = 6 ∧
        Reaches trialTable 1 trialCpu c'
          (Function.update (storeOf trialTable trialCpu) (cstring "x") 4) := by
  have hat : At (trialTokens ++ [trialToken .tokSemicolon ";"]) trialGen
      (trialTokens ++ trialToken .tokSemicolon ";" :: []) := ⟨[], rfl, rfl⟩
  have hends : ¬ Attaches .tokSemicolon ∧ exprIsBinaryOp .tokSemicolon = false := ⟨by decide, rfl⟩
  have hdeclared : trialExpr.Declared trialTable :=
    ⟨⟨trialSymbol "x" .int (-4), by decide, .inl rfl⟩,
      ⟨trialSymbol "c" .char (-5), by decide, .inr rfl⟩⟩
  obtain ⟨g', bytes, hreturns, hpos, hout, hrun⟩ :=
    exprParse_correct plainTable_trial (Statics.initial rfl) derives_trial hdeclared hat hends
  refine ⟨g', bytes, hreturns, hpos, hout, fun code a hcode => ?_⟩
  have hx : storeOf trialTable trialCpu (cstring "x") = 3 := by decide
  have hc : storeOf trialTable trialCpu (cstring "c") = -2 := by decide
  have htype : (symbolOf trialTable (cstring "x")).type = .int := by decide
  refine hrun code a trialCpu _ _ _ hcode room_trial (vars_storeOf _ _) ?_
  have hne : cstring "c" ≠ cstring "x" := by decide
  simp only [trialExpr, Expr.eval, map_some, some_bind, hx, htype, update_of_ne hne, hc]
  rfl

end Trial

end JexOs.Tcc
