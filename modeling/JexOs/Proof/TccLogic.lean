import JexOs.Proof.TccExec
import JexOs.Lib.X86Flow

/-!
# The logical operators

The first of the short jumps in the code of `&&` and `||` lands in front of the `movzx` that ends the other branch,
and the second one goes one byte too far in `&&` and into the middle of the last instruction in `||`.
-/

namespace JexOs.Tcc

open X86

inductive LogicOp where
  | and | or
deriving DecidableEq, Repr

namespace LogicOp

def token : LogicOp → TokenType
  | .and => .tokLogand
  | .or => .tokLogor

def skipRight : LogicOp → List Byte
  | .and => [0x74, 0x05]
  | .or => [0x75, 0x05]

def emitRight : List Byte := [0x85, 0xC0] ++ emitSetneAl

def emitDecided : LogicOp → List Byte
  | .and => [0x33, 0xC0]
  | .or => [0xB8, 0x01, 0x00, 0x00, 0x00]

def emit (op : LogicOp) : List Byte :=
  [0x85, 0xDB] ++ (op.skipRight ++ (emitRight ++ (emitMovzxEaxAl ++ ([0xEB, 0x03] ++ op.emitDecided))))

def Decides (op : LogicOp) (a : Word) : Prop :=
  match op with
  | .and => a = 0
  | .or => a ≠ 0

instance (op : LogicOp) (a : Word) : Decidable (op.Decides a) := by
  unfold Decides
  split <;> infer_instance

def apply : LogicOp → Word → Word → Word
  | .and, a, b => truth (decide (a ≠ 0 ∧ b ≠ 0))
  | .or, a, b => truth (decide (a ≠ 0 ∨ b ≠ 0))

def leftover (op : LogicOp) (a b : Word) : Word :=
  if op.Decides a then (byteOf b 0).setWidth 32 else truth (decide (b ≠ 0))

end LogicOp

theorem applyBinary_logic (op : LogicOp) (g : Gen) : applyBinary op.token g = (0, g.emit op.emit) := by
  cases op <;> rfl

section Machine

variable {p : Platform} {code : Word → Byte} {a x y : Word} {c : Cpu} {op : LogicOp}

theorem LogicOp.departs_tail (hcode : CodeAt code a op.emit) (c : Cpu) :
    ∃ c', Departs p code (X86.Within a 14) { cpu := c, eip := a + BitVec.ofNat 32 9 }
        { cpu := c', eip := a + BitVec.ofNat 32 17 } ∧
      c'.regs .eax = (byteOf (c.regs .eax) 0).setWidth 32 ∧ c'.mem = c.mem ∧
      c'.regs .esp = c.regs .esp := by
  have htail := hcode.right.right.right
  rw [add_ofNat_ofNat, add_ofNat_ofNat] at htail
  have hjump : CodeAt code (a + BitVec.ofNat 32 12) [0xEB, 0x03] := by
    have h := htail.right.left
    rw [add_ofNat_ofNat] at h
    cases op <;> exact h
  have hmovzx : CodeAt code (a + BitVec.ofNat 32 9) emitMovzxEaxAl := by
    have h := htail.left
    cases op <;> exact h
  have hdecodes : Decodes emitMovzxEaxAl [.movzx .eax (.reg .eax)] := Decodes.single (by decide) fun _ => rfl
  refine ⟨c.setReg .eax ((byteOf (c.regs .eax) 0).setWidth 32), ?_, ?_, rfl, rfl⟩
  · refine departs_straight hdecodes hmovzx (fun k hk => ?_) rfl ?_
    · rw [add_ofNat_ofNat]
      have hk' : k < 3 := hk
      exact within_at (by omega) (by decide)
    · rw [add_ofNat_ofNat]
      refine Departs.step (within_at (by decide) (by decide))
        (Platform.step_jmp hjump (by decide) fun _ => rfl) ?_
      have hland : a + BitVec.ofNat 32 12 + BitVec.ofNat 32 2 + BitVec.signExtend 32 (0x03 : Byte) =
          a + BitVec.ofNat 32 17 := by
        rw [add_ofNat_ofNat, BitVec.add_assoc]
        rfl
      show Departs p code _ { cpu := _, eip := a + BitVec.ofNat 32 12 + BitVec.ofNat 32 2 + _ } _
      rw [hland]
      exact Departs.out (not_within_at (by decide) (by decide))
  · simp only [Cpu.setReg, Function.update_self]

theorem LogicOp.departs_middle (hcode : CodeAt code a op.emit) (hebx : c.regs .ebx = x)
    (heax : c.regs .eax = y) :
    ∃ c', Departs p code (X86.Within a 14) { cpu := c, eip := a }
        { cpu := c', eip := a + BitVec.ofNat 32 17 } ∧
      c'.regs .eax = op.leftover x y ∧ c'.mem = c.mem ∧ c'.regs .esp = c.regs .esp := by
  have htest : Decodes [0x85, 0xDB] [.test (.reg .ebx) (.reg .ebx)] := Decodes.single (by decide) fun _ => rfl
  have hright : Decodes LogicOp.emitRight [.test (.reg .eax) (.reg .eax), .setcc .ne (.reg .eax)] :=
    Decodes.cons (b := [0x85, 0xC0]) (by decide) (fun _ => rfl)
      (Decodes.single (by decide) fun _ => rfl)
  -- the flags of the left operand
  let c₁ : Cpu := c.withFlags (x &&& x) false
  have hfirst : execAll [.test (.reg .ebx) (.reg .ebx)] c = some c₁ := by
    subst hebx
    rfl
  have hzero : c₁.flags.zero = decide (x = 0) := by
    have h : c₁.flags.zero = (x &&& x == 0) := rfl
    rw [h, BitVec.and_self]
    rfl
  have hjump : CodeAt code (a + BitVec.ofNat 32 2) op.skipRight := hcode.right.left
  have hlength : op.skipRight.length = 2 := by cases op <;> rfl
  obtain ⟨cc, hdecode, hcond⟩ : ∃ cc,
      (∀ tail, decode (op.skipRight ++ tail) =
        some (.jcc cc (BitVec.signExtend 32 (0x05 : Byte)), op.skipRight.length)) ∧
      (c₁.cond cc = true ↔ op.Decides x) := by
    cases op with
    | and =>
      refine ⟨.e, fun _ => rfl, ?_⟩
      have h : c₁.cond .e = decide (x = 0) := hzero
      rw [h]
      exact decide_eq_true_iff
    | or =>
      refine ⟨.ne, fun _ => rfl, ?_⟩
      have h : c₁.cond .ne = !decide (x = 0) := congrArg Bool.not hzero
      rw [h, ← decide_not]
      exact decide_eq_true_iff
  have hstep : p.step code { cpu := c₁, eip := a + BitVec.ofNat 32 2 } =
      some { cpu := c₁
             eip := if op.Decides x then a + BitVec.ofNat 32 9 else a + BitVec.ofNat 32 4 } := by
    have hland : a + BitVec.ofNat 32 2 + BitVec.ofNat 32 op.skipRight.length +
        BitVec.signExtend 32 (0x05 : Byte) = a + BitVec.ofNat 32 9 := by
      rw [hlength, add_ofNat_ofNat, BitVec.add_assoc]
      rfl
    have hfall : a + BitVec.ofNat 32 2 + BitVec.ofNat 32 op.skipRight.length =
        a + BitVec.ofNat 32 4 := by
      rw [hlength, add_ofNat_ofNat]
    rw [Platform.step_jcc hjump (by omega) hdecode, hland, hfall]
    simp only [hcond]
  have hstart : ∀ {t : State}, Departs p code (X86.Within a 14)
      { cpu := c₁
        eip := if op.Decides x then a + BitVec.ofNat 32 9 else a + BitVec.ofNat 32 4 } t →
      Departs p code (X86.Within a 14) { cpu := c, eip := a } t := by
    intro t ht
    refine departs_straight htest hcode.left (fun k hk => ?_) hfirst ?_
    · have hk' : k < 2 := hk
      exact within_at (by omega) (by decide)
    · exact Departs.step (within_at (by decide) (by decide)) hstep ht
  unfold LogicOp.leftover
  by_cases hdecides : op.Decides x
  · obtain ⟨c', hdeparts, heax', hmem, hesp⟩ := LogicOp.departs_tail (p := p) hcode c₁
    refine ⟨c', hstart ?_, ?_, hmem, hesp⟩
    · rw [if_pos hdecides]
      exact hdeparts
    · rw [if_pos hdecides, heax', ← heax]
      rfl
  · obtain ⟨c₂, hexec, hlow, hmem₂, hesp₂⟩ : ∃ c₂,
        execAll [.test (.reg .eax) (.reg .eax), .setcc .ne (.reg .eax)] c₁ = some c₂ ∧
          (byteOf (c₂.regs .eax) 0).setWidth 32 = truth (decide (y ≠ 0)) ∧ c₂.mem = c.mem ∧
          c₂.regs .esp = c.regs .esp := by
      refine ⟨_, rfl, ?_, rfl, rfl⟩
      have hflag : (c₁.withFlags (y &&& y) false).cond .ne = decide (y ≠ 0) := by
        have h : (c₁.withFlags (y &&& y) false).cond .ne = !(y &&& y == 0) := rfl
        rw [h, BitVec.and_self, decide_not]
        rfl
      have heax₁ : c₁.regs .eax = y := heax
      simp only [Cpu.setByte, Cpu.setReg, Cpu.get, Function.update_self, byteOf_joinWord_zero, heax₁, hflag]
      unfold truth
      split <;> rfl
    obtain ⟨c', hdeparts, heax', hmem, hesp⟩ := LogicOp.departs_tail (p := p) hcode c₂
    refine ⟨c', hstart ?_, ?_, hmem.trans hmem₂, hesp.trans hesp₂⟩
    · rw [if_neg hdecides]
      have hcode' : CodeAt code (a + BitVec.ofNat 32 4) LogicOp.emitRight := by
        have h := hcode.right.right.left
        rw [add_ofNat_ofNat] at h
        cases op <;> exact h
      refine departs_straight hright hcode' (fun k hk => ?_) hexec ?_
      · rw [add_ofNat_ofNat]
        have hk' : k < 5 := hk
        exact within_at (by omega) (by decide)
      · rw [add_ofNat_ofNat]
        exact hdeparts
    · rw [if_neg hdecides, heax', hlow]

/-- The code of an operand is left at its end with the value in `eax`, and the stack as it was. -/
structure Computed (p : Platform) (code : Word → Byte) (a : Word) (n : Nat) (c c' : Cpu) (v : Word) :
    Prop where
  block : Block p code a n c c'
  eax : c'.regs .eax = v
  esp : c'.regs .esp = c.regs .esp
  top : load32 c'.mem (c.regs .esp) = load32 c.mem (c.regs .esp)

def logicCode (op : LogicOp) (left right : List Byte) : List Byte :=
  left ++ (emitPushEax ++ (right ++ (emitPopEbx ++ op.emit)))

/-- The code is left at its end, with the truth of the expression in `eax` and the stack as it was. -/
def ComesOut (p : Platform) (code : Word → Byte) (a : Word) (n : Nat) (c : Cpu) (v : Word) : Prop :=
  ∃ c', Block p code a n c c' ∧ c'.regs .eax = v ∧ c'.regs .esp = c.regs .esp

variable {left right : List Byte} {c₁ c₂ : Cpu}

theorem length_logicCode (op : LogicOp) (left right : List Byte) :
    (logicCode op left right).length = left.length + 1 + right.length + 1 + op.emit.length := by
  unfold logicCode emitPushEax emitPopEbx
  simp only [List.length_append, List.length_cons, List.length_nil]
  omega

variable (hcode : CodeAt code a (logicCode op left right))

include hcode

theorem logicCode_operator :
    CodeAt code (a + BitVec.ofNat 32 (left.length + 1 + right.length + 1)) op.emit := by
  have h := hcode.right.right.right.right
  rw [add_ofNat_ofNat, add_ofNat_ofNat, add_ofNat_ofNat] at h
  simpa [emitPushEax, emitPopEbx, Nat.add_assoc] using h

theorem departs_logicCode (hsize : (logicCode op left right).length + 1 < 2 ^ 32)
    (hleft : Computed p code a left.length c c₁ x)
    (hright : Computed p code (a + BitVec.ofNat 32 (left.length + 1)) right.length (c₁.push x) c₂ y) :
    ∃ c', Departs p code (X86.Within a (left.length + 1 + right.length + 1 + 14)) { cpu := c, eip := a }
        { cpu := c', eip := a + BitVec.ofNat 32 (left.length + 1 + right.length + 1 + 17) } ∧
      c'.regs .eax = op.leftover x y ∧ c'.regs .esp = c.regs .esp := by
  have hoperator : 16 ≤ op.emit.length := by cases op <;> decide
  rw [length_logicCode] at hsize
  have hpushLength : emitPushEax.length = 1 := rfl
  have hpopLength : emitPopEbx.length = 1 := rfl
  have hpush : CodeAt code (a + BitVec.ofNat 32 left.length) emitPushEax := hcode.right.left
  have hpop : CodeAt code (a + BitVec.ofNat 32 (left.length + 1 + right.length)) emitPopEbx := by
    have h := hcode.right.right.right.left
    rw [add_ofNat_ofNat, add_ofNat_ofNat] at h
    simpa [emitPushEax, Nat.add_assoc] using h
  -- the left value comes back from the stack
  let c₃ : Cpu := (c₂.setReg .esp (c₂.regs .esp + 4)).setReg .ebx (load32 c₂.mem (c₂.regs .esp))
  have hebx : c₃.regs .ebx = x := by
    have htop : load32 c₂.mem ((c₁.push x).regs .esp) = x := by
      rw [hright.top]
      exact load32_store32 _ _ _
    have h : c₃.regs .ebx = load32 c₂.mem (c₂.regs .esp) := rfl
    rw [h, hright.esp, htop]
  have heax : c₃.regs .eax = y := hright.eax
  have hesp : c₃.regs .esp = c.regs .esp := by
    have h : c₃.regs .esp = c₂.regs .esp + 4 := rfl
    have hpushed : (c₁.push x).regs .esp = c₁.regs .esp - 4 := rfl
    rw [h, hright.esp, hpushed, hleft.esp, BitVec.sub_add_cancel]
  obtain ⟨c', hmiddle, heax', -, hesp'⟩ := LogicOp.departs_middle (p := p) (logicCode_operator hcode) hebx heax
  refine ⟨c', ?_, heax', hesp'.trans hesp⟩
  rw [add_ofNat_ofNat] at hmiddle
  have hin : ∀ k, k < left.length + 1 + right.length + 1 + 14 →
      X86.Within a (left.length + 1 + right.length + 1 + 14) (a + BitVec.ofNat 32 k) :=
    fun k hk => within_at hk (by omega)
  refine Departs.through hleft.block (fun hb => hb.trans_le (by omega)) ?_
  have hpushed : execAll [.push .eax] c₁ = some (c₁.push x) := by
    rw [← hleft.eax]
    rfl
  refine departs_straight decodes_push hpush (fun k hk => ?_) hpushed ?_
  · rw [add_ofNat_ofNat]
    exact hin _ (by omega)
  rw [add_ofNat_ofNat, hpushLength]
  refine Block.through hright.block (fun hb => within_part hb (by omega) (by omega)) ?_
  refine departs_straight decodes_pop_ebx hpop (fun k hk => ?_) rfl ?_
  · rw [add_ofNat_ofNat]
    exact hin _ (by omega)
  rw [add_ofNat_ofNat, hpopLength]
  refine Departs.through hmiddle (fun hb => within_part hb (by omega) (by omega)) ?_
  exact Departs.out (not_within_at (by omega) (by omega))

omit hcode in
theorem leftover_or_iff : LogicOp.or.leftover x y = LogicOp.or.apply x y ↔ x = 0 ∨ byteOf y 0 = 1 := by
  unfold LogicOp.leftover LogicOp.apply
  by_cases hx : x = 0
  · have hdecides : ¬ LogicOp.or.Decides x := fun h => h hx
    rw [if_neg hdecides]
    simp only [hx, ne_eq, not_true_eq_false, false_or, true_or]
  · have hdecides : LogicOp.or.Decides x := hx
    simp only [if_pos hdecides, ne_eq, hx, not_false_eq_true, true_or, decide_true, false_or]
    constructor
    · intro h
      have h' := congrArg (BitVec.setWidth 8) h
      rw [BitVec.setWidth_setWidth_of_le _ (by decide), BitVec.setWidth_eq] at h'
      exact h'
    · intro h
      rw [h]
      rfl

theorem logicCode_iff (hsize : (logicCode op left right).length + 1 < 2 ^ 32)
    (hleft : Computed p code a left.length c c₁ x)
    (hright : Computed p code (a + BitVec.ofNat 32 (left.length + 1)) right.length (c₁.push x) c₂ y) :
    ComesOut p code a (logicCode op left right).length c (op.apply x y) ↔
      op = .or ∧ p.writable (op.apply x y) = true ∧ (x = 0 ∨ byteOf y 0 = 1) := by
  obtain ⟨c₃, hmiddle, heax, hesp⟩ := departs_logicCode hcode hsize hleft hright
  have hoperator := logicCode_operator hcode
  have hlength := length_logicCode op left right
  generalize left.length + 1 + right.length + 1 = o at hmiddle hoperator hlength
  have hwhole : 16 ≤ op.emit.length := by cases op <;> decide
  have hsub : ∀ {b}, X86.Within a (o + 14) b → X86.Within a (logicCode op left right).length b :=
    fun hb => hb.trans_le (by omega)
  cases op with
  | and =>
    have hlength' : (logicCode .and left right).length = o + 16 := hlength
    constructor
    · rintro ⟨c', hblock, -, -⟩
      -- the run comes out behind the end
      have hrest := Departs.rest hblock hmiddle hsub
      have hout' : Departs p code (X86.Within a (logicCode .and left right).length)
          { cpu := c₃, eip := a + BitVec.ofNat 32 (o + 17) }
          { cpu := c₃, eip := a + BitVec.ofNat 32 (o + 17) } :=
        Departs.out (not_within_at (by omega) (by omega))
      have hsame := congrArg (fun s => (State.eip s - a).toNat) (Departs.unique hrest hout')
      simp only [hlength', BitVec.add_comm a, BitVec.add_sub_cancel, BitVec.toNat_ofNat] at hsame
      omega
    · rintro ⟨hor, -⟩
      cases hor
  | or =>
    have hlength' : (logicCode .or left right).length = o + 19 := hlength
    have hzeros : CodeAt code (a + BitVec.ofNat 32 (o + 17)) [0x00, 0x00] := by
      have h := hoperator
      have hsplit : LogicOp.or.emit = LogicOp.or.emit.take 17 ++ [0x00, 0x00] := rfl
      rw [hsplit] at h
      have h' := h.right
      rw [add_ofNat_ofNat] at h'
      exact h'
    have hin : X86.Within a (logicCode .or left right).length (a + BitVec.ofNat 32 (o + 17)) :=
      within_at (by omega) (by omega)
    have hstep := Platform.step_add (p := p) (c := c₃) hzeros
    have hend : a + BitVec.ofNat 32 (o + 17) + 2 = a + BitVec.ofNat 32 (o + 19) := add_ofNat_ofNat a (o + 17) 2
    rw [hend] at hstep
    constructor
    · rintro ⟨c', hblock, hvalue, -⟩
      have hrest := Departs.rest hblock hmiddle hsub
      cases hadded : p.addByte c₃ with
      | none =>
        rw [hadded] at hstep
        exact absurd hstep (hrest.moves hin)
      | some c₄ =>
        rw [hadded] at hstep
        have hlast := Departs.next hrest hin hstep
        have hout : Departs p code (X86.Within a (logicCode .or left right).length)
            { cpu := c₄, eip := a + BitVec.ofNat 32 (o + 19) }
            { cpu := c₄, eip := a + BitVec.ofNat 32 (o + 19) } :=
          Departs.out (not_within_at (by omega) (by omega))
        have hsame : c' = c₄ := congrArg State.cpu (Departs.unique hlast hout)
        unfold Platform.addByte at hadded
        simp only at hadded
        split at hadded
        · rename_i hwritable
          cases hadded
          have hkept : LogicOp.or.leftover x y = LogicOp.or.apply x y := by
            rw [← hvalue, hsame]
            exact heax.symm
          refine ⟨rfl, ?_, leftover_or_iff.mp hkept⟩
          rw [← hkept, ← heax]
          exact hwritable
        · cases hadded
    · rintro ⟨-, hwritable, hcond⟩
      have hkept := leftover_or_iff.mpr hcond
      rw [← hkept, ← heax] at hwritable
      obtain ⟨c₄, hadded, hregs⟩ : ∃ c₄, p.addByte c₃ = some c₄ ∧ c₄.regs = c₃.regs := by
        unfold Platform.addByte
        simp only [hwritable, if_true]
        exact ⟨_, rfl, rfl⟩
      rw [hadded] at hstep
      refine ⟨c₄, ?_, ?_, ?_⟩
      · rw [hlength']
        rw [hlength'] at hin
        refine Departs.through hmiddle (fun hb => hb.trans_le (by omega)) ?_
        refine Departs.step hin hstep ?_
        exact Departs.out (not_within_at (by omega) (by omega))
      · rw [hregs, heax, hkept]
      · rw [hregs, hesp]

end Machine

structure ReadsRight (tokens : List Token) (tab : Symtab) (fuel minPrec : Nat) (op : LogicOp)
    (g g' : Gen) (right : List Byte) : Prop where
  tok : tokens[g.pos]?.map Token.type = some op.token
  binds : minPrec ≤ exprGetPrecedence op.token
  reads : orFail (parsePrimary tokens tab fuel
      ({ g.skip 1 with leftIsPointer := decide (g.lastIdentType = SymType.ptr) }.emit emitPushEax))
    (fun g => climbHigher tokens tab fuel (exprGetPrecedence op.token) g) = some (0, g')
  out : g'.out = g.out ++ (emitPushEax ++ right)

section Parser

variable {tokens : List Token} {tab : Symtab} {fuel minPrec : Nat} {op : LogicOp} {g g₂ : Gen}
  {left right before : List Byte}

theorem ReadsRight.climb (h : ReadsRight tokens tab fuel minPrec op g g₂ right) :
    climb tokens tab (fuel + 1) minPrec g =
      climb tokens tab fuel minPrec ((g₂.emit emitPopEbx).emit op.emit) := by
  obtain ⟨tok, htok, htype⟩ := Option.map_eq_some_iff.mp h.tok
  have hbinary : exprIsBinaryOp op.token = true := by cases op <;> rfl
  have hround := orFail_orFail h.reads fun g =>
    let r := applyBinary op.token (g.emit emitPopEbx)
    if r.1 < 0 then some (-1, r.2) else Tcc.climb tokens tab fuel minPrec r.2
  simp only [applyBinary_logic, Int.lt_irrefl, if_false] at hround
  rw [Tcc.climb]
  simp only [htok, some_bind, htype, hbinary, Bool.not_true, Bool.false_eq_true, if_false]
  rw [if_neg (not_lt.mpr h.binds)]
  simp only [applyBinary_logic, Int.lt_irrefl, if_false]
  exact hround

/-- The code for `a && b` and `a || b` comes out with the value for `||` alone, and there only where the left
operand is zero or the low byte of the right one is 1. -/
theorem logical_iff {p : Platform} {code : Word → Byte} {a x y : Word} {c c₁ c₂ : Cpu}
    (hreads : ReadsRight tokens tab fuel minPrec op g g₂ right) (hout : g.out = before ++ left)
    (hcode : CodeAt code a (logicCode op left right)) (hsize : (logicCode op left right).length + 1 < 2 ^ 32)
    (hleft : Computed p code a left.length c c₁ x)
    (hright : Computed p code (a + BitVec.ofNat 32 (left.length + 1)) right.length (c₁.push x) c₂ y) :
    ∃ g', climb tokens tab (fuel + 1) minPrec g = climb tokens tab fuel minPrec g' ∧
      g'.out = before ++ logicCode op left right ∧
      (ComesOut p code a (logicCode op left right).length c (op.apply x y) ↔
        op = .or ∧ p.writable (op.apply x y) = true ∧ (x = 0 ∨ byteOf y 0 = 1)) := by
  refine ⟨_, hreads.climb, ?_, logicCode_iff hcode hsize hleft hright⟩
  have hemitted : ((g₂.emit emitPopEbx).emit op.emit).out = g₂.out ++ emitPopEbx ++ op.emit := rfl
  rw [hemitted, hreads.out, hout]
  unfold logicCode
  simp only [List.append_assoc]

end Parser

section Trial

theorem computed_immediate {p : Platform} {code : Word → Byte} {a : Word} (v : Word) (c : Cpu)
    (hcode : CodeAt code a (emitMovEaxImm v)) :
    Computed p code a (emitMovEaxImm v).length c (c.setReg .eax v) v :=
  { block := Block.straight (decodes_immediate v) hcode (by simp [emitMovEaxImm, wordBytes]) rfl
    eax := by simp only [Cpu.setReg, Function.update_self]
    esp := rfl
    top := rfl }

def operandToken (n : Int) : Token :=
  { type := .tokNumber
    str := []
    intVal := n }

def trialLogic (op : LogicOp) (m n : Int) : List Token :=
  [operandToken m, trialToken op.token "", operandToken n, trialToken .tokSemicolon ";"]

def numberCode (n : Int) : List Byte := emitMovEaxImm (BitVec.ofInt 32 n)

def numbersCode (op : LogicOp) (m n : Int) : List Byte := logicCode op (numberCode m) (numberCode n)

theorem length_numbersCode (op : LogicOp) (m n : Int) :
    (logicCode op (numberCode m) (numberCode n)).length + 1 < 2 ^ 32 := by
  have hnumber : ∀ k, (numberCode k).length = 5 := fun _ => rfl
  rw [length_logicCode, hnumber, hnumber]
  cases op <;> decide

def numberGen (n : Int) : Gen := (trialGen.emit (numberCode n)).skip 1

theorem computed_numbers {p : Platform} {code : Word → Byte} {a : Word} {op : LogicOp} {m n : Int}
    (hcode : CodeAt code a (numbersCode op m n)) (c : Cpu) :
    ∃ c₁ c₂, Computed p code a (numberCode m).length c c₁ (BitVec.ofInt 32 m) ∧
      Computed p code (a + BitVec.ofNat 32 ((numberCode m).length + 1)) (numberCode n).length
        (c₁.push (BitVec.ofInt 32 m)) c₂ (BitVec.ofInt 32 n) := by
  have hsecond := hcode.right.right.left
  rw [add_ofNat_ofNat] at hsecond
  exact ⟨_, _, computed_immediate _ c hcode.left, computed_immediate _ _ hsecond⟩

/-- In `0 || 1` with all of the memory writable, the value comes out. -/
theorem logical_iff_trial : ∃ g', climb (trialLogic .or 0 1) trialTable 6 precNone (numberGen 0) =
        climb (trialLogic .or 0 1) trialTable 5 precNone g' ∧ g'.out = [] ++ numbersCode .or 0 1 ∧ ComesOut
          { writable := fun _ => true
            syscall := fun _ => none }
          (placed (numbersCode .or 0 1) 0x08048080) 0x08048080 (numbersCode .or 0 1).length trialCpu
          (LogicOp.or.apply 0 1) := by
  have hsize := length_numbersCode .or 0 1
  have hcode : CodeAt (placed (numbersCode .or 0 1) 0x08048080) 0x08048080 (numbersCode .or 0 1) :=
    codeAt_placed (Nat.le_of_lt (Nat.lt_of_succ_lt hsize)) _
  obtain ⟨c₁, c₂, hleft, hright⟩ := computed_numbers hcode trialCpu
  have hreads : ReadsRight (trialLogic .or 0 1) trialTable 5 precNone .or (numberGen 0)
      ((({ (numberGen 0).skip 1 with leftIsPointer := false }.emit emitPushEax).emit
        (numberCode 1)).skip 1) (numberCode 1) :=
    { tok := rfl
      binds := Nat.zero_le _
      reads := rfl
      out := rfl }
  have hout : (numberGen 0).out = [] ++ numberCode 0 := rfl
  obtain ⟨g', hclimb, hbytes, hiff⟩ := logical_iff hreads hout hcode hsize hleft hright
  exact ⟨g', hclimb, hbytes, hiff.mpr ⟨rfl, rfl, .inl rfl⟩⟩

/-- `1 && 1` comes out one byte too far, whatever the platform and the state of the machine are. -/
theorem not_logical_and : ∃ g', exprParse (trialLogic .and 1 1) trialTable 6 trialGen = some (0, g') ∧
      g'.out = numbersCode .and 1 1 ∧ ∀ p c, ¬ ComesOut p (placed g'.out 0x08048080) 0x08048080 g'.out.length c
        (LogicOp.and.apply 1 1) := by
  refine ⟨_, rfl, rfl, fun p c hout => ?_⟩
  have hsize := length_numbersCode .and 1 1
  have hcode : CodeAt (placed (numbersCode .and 1 1) 0x08048080) 0x08048080 (numbersCode .and 1 1) :=
    codeAt_placed (Nat.le_of_lt (Nat.lt_of_succ_lt hsize)) _
  obtain ⟨c₁, c₂, hleft, hright⟩ := computed_numbers (p := p) hcode c
  have hor := ((logicCode_iff hcode hsize hleft hright).mp hout).1
  cases hor

end Trial

end JexOs.Tcc
