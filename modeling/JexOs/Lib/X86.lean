import Mathlib.Algebra.Group.Int.Defs
import Mathlib.Algebra.GroupWithZero.Nat
import Mathlib.Data.List.Infix

/-!
# A fragment of the 32-bit x86

Registers, the flags that conditions read, a flat memory, and the instructions a simple compiler emits, decoded
from bytes of their own, so stores do not change them. Multiplication, division and shifts leave the flags as they
were. `int` is left to whoever runs the machine.
-/

namespace X86

open List

abbrev Byte := BitVec 8
abbrev Word := BitVec 32
abbrev Memory := Word → Byte

inductive Reg where
  | eax | ecx | edx | ebx | esp | ebp | esi | edi
deriving DecidableEq, Repr

structure Flags where
  zero : Bool
  sign : Bool
  overflow : Bool
deriving DecidableEq, Repr

structure Cpu where
  regs : Reg → Word
  flags : Flags
  mem : Memory

/-! ### Memory -/

def joinWord (b₀ b₁ b₂ b₃ : Byte) : Word := b₃ ++ b₂ ++ b₁ ++ b₀

def byteOf (v : Word) (k : Nat) : Byte := v.extractLsb' (8 * k) 8

def wordBytes (v : Word) : List Byte := [byteOf v 0, byteOf v 1, byteOf v 2, byteOf v 3]

def load32 (mem : Memory) (a : Word) : Word := joinWord (mem a) (mem (a + 1)) (mem (a + 2)) (mem (a + 3))

def store32 (mem : Memory) (a v : Word) : Memory :=
  fun b => if (b - a).toNat < 4 then byteOf v (b - a).toNat else mem b

def store8 (mem : Memory) (a : Word) (v : Byte) : Memory := Function.update mem a v

/-! ### Instructions -/

/-- A register or a place in memory. As an operand of a byte, a register is its low byte. -/
inductive Operand where
  | reg (r : Reg)
  | mem (base : Reg) (disp : Word)
deriving DecidableEq, Repr

inductive Cond where
  | e | ne | l | ge | le | g
deriving DecidableEq, Repr

inductive Alu where
  | add | sub | xor | cmp
deriving DecidableEq, Repr

inductive Plain where
  | movImm (dst : Reg) (v : Word)
  | mov (dst src : Operand)
  | movByte (dst : Operand) (src : Reg)
  | movsx (dst : Reg) (src : Operand)
  | movzx (dst : Reg) (src : Operand)
  | lea (dst base : Reg) (disp : Word)
  | push (src : Reg)
  | pop (dst : Reg)
  | alu (op : Alu) (dst src : Operand)
  | aluImm (op : Alu) (dst : Operand) (v : Word)
  | test (a b : Operand)
  | imul (dst : Reg) (src : Operand)
  | imulImm (dst : Reg) (src : Operand) (v : Word)
  | not (dst : Operand)
  | neg (dst : Operand)
  | idiv (src : Operand)
  | cdq
  | xchg (r : Reg)
  | shl (dst : Operand)
  | shr (dst : Operand)
  | shlImm (dst : Operand) (n : Nat)
  | setcc (c : Cond) (dst : Operand)
deriving DecidableEq, Repr

inductive Instr where
  | plain (p : Plain)
  | jcc (c : Cond) (rel : Word)
  | jmp (rel : Word)
  | call (rel : Word)
  | int (n : Byte)
deriving DecidableEq, Repr

/-! ### Decoding -/

def regOf : Nat → Reg
  | 0 => .eax
  | 1 => .ecx
  | 2 => .edx
  | 3 => .ebx
  | 4 => .esp
  | 5 => .ebp
  | 6 => .esi
  | _ => .edi

def condOf : Nat → Option Cond
  | 0x4 => some .e
  | 0x5 => some .ne
  | 0xC => some .l
  | 0xD => some .ge
  | 0xE => some .le
  | 0xF => some .g
  | _ => none

/-- The ModRM byte and what belongs to it: the register field, the operand, its length, and the bytes
after it. Scaled indices and absolute addresses are outside the fragment. -/
def modrm : List Byte → Option (Nat × Operand × Nat × List Byte)
  | [] => none
  | b :: rest =>
    let field := b.toNat / 8 % 8
    let rm := b.toNat % 8
    match b.toNat / 64, rest with
    | 3, rest => some (field, .reg (regOf rm), 1, rest)
    | 1, d :: rest =>
      if rm = 4 then none else some (field, .mem (regOf rm) (d.signExtend 32), 2, rest)
    | 2, d₀ :: d₁ :: d₂ :: d₃ :: rest =>
      if rm = 4 then none else some (field, .mem (regOf rm) (joinWord d₀ d₁ d₂ d₃), 5, rest)
    | 0, rest =>
      if rm = 4 ∨ rm = 5 then none else some (field, .mem (regOf rm) 0, 1, rest)
    | _, _ => none

def decodeModrm (bytes : List Byte) (f : Nat → Operand → Option Plain) : Option (Instr × Nat) := do
  let (field, operand, n, _) ← modrm bytes
  let p ← f field operand
  some (.plain p, n + 1)

def decodeModrmImm8 (bytes : List Byte) (f : Nat → Operand → Word → Option Plain) : Option (Instr × Nat) := do
  let (field, operand, n, rest) ← modrm bytes
  match rest with
  | v :: _ => do
      let p ← f field operand (v.signExtend 32)
      some (.plain p, n + 2)
  | [] => none

def decodeModrmImm32 (bytes : List Byte) (f : Nat → Operand → Word → Option Plain) : Option (Instr × Nat) := do
  let (field, operand, n, rest) ← modrm bytes
  match rest with
  | b₀ :: b₁ :: b₂ :: b₃ :: _ => do
      let p ← f field operand (joinWord b₀ b₁ b₂ b₃)
      some (.plain p, n + 5)
  | _ => none

/-- The low byte of a register exists for the first four registers only. -/
def byteOperand (operand : Operand) : Option Operand :=
  match operand with
  | .reg r => if r = .eax ∨ r = .ecx ∨ r = .edx ∨ r = .ebx then some operand else none
  | .mem _ _ => some operand

def memOperand (operand : Operand) : Option (Reg × Word) :=
  match operand with
  | .reg _ => none
  | .mem base disp => some (base, disp)

def group3 (field : Nat) (operand : Operand) : Option Plain :=
  match field with
  | 2 => some (.not operand)
  | 3 => some (.neg operand)
  | 7 => some (.idiv operand)
  | _ => none

def group1 (field : Nat) (operand : Operand) (v : Word) : Option Plain :=
  match field with
  | 0 => some (.aluImm .add operand v)
  | 5 => some (.aluImm .sub operand v)
  | _ => none

def shiftGroup (field : Nat) (operand : Operand) : Option Plain :=
  match field with
  | 4 => some (.shl operand)
  | 5 => some (.shr operand)
  | _ => none

def shiftImmGroup (n : Nat) (field : Nat) (operand : Operand) : Option Plain :=
  match field with
  | 4 => some (.shlImm operand n)
  | _ => none

def decodeEscape : List Byte → Option (Instr × Nat)
  | [] => none
  | op :: rest =>
    let longer := Option.map fun ((i, n) : Instr × Nat) => (i, n + 1)
    match op.toNat with
    | 0xAF => longer (decodeModrm rest fun field o => some (.imul (regOf field) o))
    | 0xB6 => longer (decodeModrm rest fun field o =>
      (byteOperand o).map fun o => .movzx (regOf field) o)
    | 0xBE => longer (decodeModrm rest fun field o =>
      (byteOperand o).map fun o => .movsx (regOf field) o)
    | n =>
      if n / 16 = 9 then do
        let c ← condOf (n % 16)
        longer (decodeModrm rest fun _ o => (byteOperand o).map fun o => .setcc c o)
      else if n / 16 = 8 then do
        let c ← condOf (n % 16)
        match rest with
        | b₀ :: b₁ :: b₂ :: b₃ :: _ => some (.jcc c (joinWord b₀ b₁ b₂ b₃), 6)
        | _ => none
      else none

def decode : List Byte → Option (Instr × Nat)
  | [] => none
  | op :: rest =>
    match op.toNat with
    | 0x01 => decodeModrm rest fun field o => some (.alu .add o (.reg (regOf field)))
    | 0x03 => decodeModrm rest fun field o => some (.alu .add (.reg (regOf field)) o)
    | 0x29 => decodeModrm rest fun field o => some (.alu .sub o (.reg (regOf field)))
    | 0x31 => decodeModrm rest fun field o => some (.alu .xor o (.reg (regOf field)))
    | 0x33 => decodeModrm rest fun field o => some (.alu .xor (.reg (regOf field)) o)
    | 0x39 => decodeModrm rest fun field o => some (.alu .cmp o (.reg (regOf field)))
    | 0x85 => decodeModrm rest fun field o => some (.test o (.reg (regOf field)))
    | 0x88 => decodeModrm rest fun field o => do
        let o ← byteOperand o
        if field < 4 then some (.movByte o (regOf field)) else none
    | 0x89 => decodeModrm rest fun field o => some (.mov o (.reg (regOf field)))
    | 0x8B => decodeModrm rest fun field o => some (.mov (.reg (regOf field)) o)
    | 0x8D => decodeModrm rest fun field o =>
      (memOperand o).map fun (base, disp) => .lea (regOf field) base disp
    | 0x69 => decodeModrmImm32 rest fun field o v => some (.imulImm (regOf field) o v)
    | 0x81 => decodeModrmImm32 rest group1
    | 0x83 => decodeModrmImm8 rest group1
    | 0xC1 => decodeModrmImm8 rest fun field o v => shiftImmGroup (v.toNat % 32) field o
    | 0xD1 => decodeModrm rest (shiftImmGroup 1)
    | 0xD3 => decodeModrm rest shiftGroup
    | 0xF7 => decodeModrm rest group3
    | 0x99 => some (.plain .cdq, 1)
    | 0x05 =>
      match rest with
      | b₀ :: b₁ :: b₂ :: b₃ :: _ =>
        some (.plain (.aluImm .add (.reg .eax) (joinWord b₀ b₁ b₂ b₃)), 5)
      | _ => none
    | 0x0F => decodeEscape rest
    | 0xE8 =>
      match rest with
      | b₀ :: b₁ :: b₂ :: b₃ :: _ => some (.call (joinWord b₀ b₁ b₂ b₃), 5)
      | _ => none
    | 0xE9 =>
      match rest with
      | b₀ :: b₁ :: b₂ :: b₃ :: _ => some (.jmp (joinWord b₀ b₁ b₂ b₃), 5)
      | _ => none
    | 0xEB =>
      match rest with
      | b :: _ => some (.jmp (b.signExtend 32), 2)
      | [] => none
    | 0xCD =>
      match rest with
      | b :: _ => some (.int b, 2)
      | [] => none
    | n =>
      if n / 8 = 0x50 / 8 then some (.plain (.push (regOf (n % 8))), 1)
      else if n / 8 = 0x58 / 8 then some (.plain (.pop (regOf (n % 8))), 1)
      else if n / 8 = 0x90 / 8 then some (.plain (.xchg (regOf (n % 8))), 1)
      else if n / 8 = 0xB8 / 8 then
        match rest with
        | b₀ :: b₁ :: b₂ :: b₃ :: _ =>
          some (.plain (.movImm (regOf (n % 8)) (joinWord b₀ b₁ b₂ b₃)), 5)
        | _ => none
      else if n / 16 = 7 then do
        let c ← condOf (n % 16)
        match rest with
        | b :: _ => some (.jcc c (b.signExtend 32), 2)
        | [] => none
      else none

/-! ### Execution -/

namespace Cpu

def setReg (c : Cpu) (r : Reg) (v : Word) : Cpu := { c with regs := Function.update c.regs r v }

def get (c : Cpu) : Operand → Word
  | .reg r => c.regs r
  | .mem base disp => load32 c.mem (c.regs base + disp)

def set (c : Cpu) (o : Operand) (v : Word) : Cpu :=
  match o with
  | .reg r => c.setReg r v
  | .mem base disp => { c with mem := store32 c.mem (c.regs base + disp) v }

def getByte (c : Cpu) : Operand → Byte
  | .reg r => byteOf (c.regs r) 0
  | .mem base disp => c.mem (c.regs base + disp)

def setByte (c : Cpu) (o : Operand) (v : Byte) : Cpu :=
  match o with
  | .reg r =>
    c.setReg r (joinWord v (byteOf (c.regs r) 1) (byteOf (c.regs r) 2) (byteOf (c.regs r) 3))
  | .mem base disp => { c with mem := store8 c.mem (c.regs base + disp) v }

def withFlags (c : Cpu) (result : Word) (overflow : Bool) : Cpu :=
  { c with
    flags :=
      { zero := result == 0
        sign := result.msb
        overflow := overflow } }

def cond (c : Cpu) : Cond → Bool
  | .e => c.flags.zero
  | .ne => !c.flags.zero
  | .l => c.flags.sign != c.flags.overflow
  | .ge => c.flags.sign == c.flags.overflow
  | .le => c.flags.zero || c.flags.sign != c.flags.overflow
  | .g => !c.flags.zero && c.flags.sign == c.flags.overflow

def alu (c : Cpu) (op : Alu) (dst : Operand) (b : Word) : Cpu :=
  let a := c.get dst
  match op with
  | .add => (c.set dst (a + b)).withFlags (a + b) (a.saddOverflow b)
  | .sub => (c.set dst (a - b)).withFlags (a - b) (a.ssubOverflow b)
  | .xor => (c.set dst (a ^^^ b)).withFlags (a ^^^ b) false
  | .cmp => c.withFlags (a - b) (a.ssubOverflow b)

def push (c : Cpu) (v : Word) : Cpu :=
  { c with
    regs := Function.update c.regs .esp (c.regs .esp - 4)
    mem := store32 c.mem (c.regs .esp - 4) v }

end Cpu

def exec (c : Cpu) : Plain → Option Cpu
  | .movImm dst v => some (c.setReg dst v)
  | .mov dst src => some (c.set dst (c.get src))
  | .movByte dst src => some (c.setByte dst (c.getByte (.reg src)))
  | .movsx dst src => some (c.setReg dst ((c.getByte src).signExtend 32))
  | .movzx dst src => some (c.setReg dst ((c.getByte src).setWidth 32))
  | .lea dst base disp => some (c.setReg dst (c.regs base + disp))
  | .push src => some (c.push (c.regs src))
  | .pop dst =>
    some ((c.setReg .esp (c.regs .esp + 4)).setReg dst (load32 c.mem (c.regs .esp)))
  | .alu op dst src => some (c.alu op dst (c.get src))
  | .aluImm op dst v => some (c.alu op dst v)
  | .test a b => some (c.withFlags (c.get a &&& c.get b) false)
  | .imul dst src => some (c.setReg dst (c.regs dst * c.get src))
  | .imulImm dst src v => some (c.setReg dst (c.get src * v))
  | .not dst => some (c.set dst (~~~c.get dst))
  | .neg dst => some ((c.set dst (-c.get dst)).withFlags (-c.get dst) (c.get dst).negOverflow)
  | .idiv src =>
    let divisor := (c.get src).toInt
    let dividend := (c.regs .edx ++ c.regs .eax : BitVec 64).toInt
    let quotient := dividend.tdiv divisor
    if divisor = 0 ∨ quotient < -2 ^ 31 ∨ 2 ^ 31 ≤ quotient then none
    else
      some ((c.setReg .eax (BitVec.ofInt 32 quotient)).setReg .edx
        (BitVec.ofInt 32 (dividend.tmod divisor)))
  | .cdq => some (c.setReg .edx (if (c.regs .eax).msb then BitVec.allOnes 32 else 0))
  | .xchg r => some ((c.setReg .eax (c.regs r)).setReg r (c.regs .eax))
  | .shl dst => some (c.set dst (c.get dst <<< ((c.regs .ecx).toNat % 32)))
  | .shr dst => some (c.set dst (c.get dst >>> ((c.regs .ecx).toNat % 32)))
  | .shlImm dst n => some (c.set dst (c.get dst <<< n))
  | .setcc cond dst => some (c.setByte dst (if c.cond cond then 1 else 0))

structure State where
  cpu : Cpu
  eip : Word

def window (code : Word → Byte) (a : Word) : List Byte :=
  (List.range 15).map fun k => code (a + BitVec.ofNat 32 k)

/-- One instruction. An `int` is no step of the machine alone. -/
def step (code : Word → Byte) (s : State) : Option State :=
  match decode (window code s.eip) with
  | none => none
  | some (i, n) =>
    let next := s.eip + BitVec.ofNat 32 n
    match i with
    | .plain p => (exec s.cpu p).map fun c => { cpu := c, eip := next }
    | .jcc c rel => some { s with eip := if s.cpu.cond c then next + rel else next }
    | .jmp rel => some { s with eip := next + rel }
    | .call rel => some { cpu := s.cpu.push next, eip := next + rel }
    | .int _ => none

def run (code : Word → Byte) : Nat → State → Option State
  | 0, s => some s
  | n + 1, s => do run code n (← step code s)

/-! ### Straight-line code -/

def CodeAt (code : Word → Byte) (a : Word) (bytes : List Byte) : Prop :=
  ∀ k (h : k < bytes.length), code (a + BitVec.ofNat 32 k) = bytes[k]

/-- The bytes are those of the instructions, one after the other. -/
inductive Decodes : List Byte → List Plain → Prop where
  | nil : Decodes [] []
  | cons {b bytes : List Byte} {p : Plain} {ps : List Plain} (hlength : b.length ≤ 15)
      (hdecode : ∀ tail, decode (b ++ tail) = some (.plain p, b.length))
      (hrest : Decodes bytes ps) : Decodes (b ++ bytes) (p :: ps)

def execAll (ps : List Plain) (c : Cpu) : Option Cpu := ps.foldlM exec c

/-- The operands an instruction reads or writes, and how many bytes of them. What `push` and `pop` do
to the stack is not an operand. -/
def Plain.operands : Plain → List (Operand × Nat)
  | .mov dst src | .alu _ dst src | .test dst src => [(dst, 4), (src, 4)]
  | .movByte dst _ | .setcc _ dst => [(dst, 1)]
  | .movsx _ src | .movzx _ src => [(src, 1)]
  | .aluImm _ dst _ | .not dst | .neg dst | .shl dst | .shr dst | .shlImm dst _ => [(dst, 4)]
  | .imul _ src | .imulImm _ src _ | .idiv src => [(src, 4)]
  | .movImm _ _ | .lea _ _ _ | .push _ | .pop _ | .cdq | .xchg _ => []

def Operand.relativeTo (base : Reg) : Operand → Option Word
  | .reg _ => none
  | .mem b disp => if b = base then some disp else none

/-- The displacements from the register at which the instruction reads or writes, with the widths. -/
def Instr.accesses (base : Reg) : Instr → List (Word × Nat)
  | .plain p => p.operands.filterMap fun (o, width) => (o.relativeTo base).map fun disp => (disp, width)
  | _ => []

/-- The bytes are instructions, one after the other, and these are the places relative to the register
that they read or write. -/
inductive Touches (base : Reg) : List Byte → List (Word × Nat) → Prop where
  | nil : Touches base [] []
  | cons {b bytes : List Byte} {i : Instr} {as : List (Word × Nat)}
      (hdecode : ∀ tail, decode (b ++ tail) = some (i, b.length)) (hrest : Touches base bytes as) :
      Touches base (b ++ bytes) (i.accesses base ++ as)

section Touches

variable {base : Reg} {bytes bytes' : List Byte} {as as' : List (Word × Nat)}

theorem Touches.append (h : Touches base bytes as) (h' : Touches base bytes' as') :
    Touches base (bytes ++ bytes') (as ++ as') := by
  induction h with
  | nil => exact h'
  | cons hdecode _ ih =>
    rw [append_assoc, append_assoc]
    exact Touches.cons hdecode ih

theorem Touches.single {b : List Byte} {i : Instr}
    (hdecode : ∀ tail, decode (b ++ tail) = some (i, b.length)) : Touches base b (i.accesses base) := by
  have hnil : Touches base [] [] := Touches.nil
  have h := Touches.cons hdecode hnil
  rwa [append_nil, append_nil] at h

theorem Decodes.touches {ps : List Plain} (h : Decodes bytes ps) :
    Touches base bytes (ps.flatMap fun p => (Instr.plain p).accesses base) := by
  induction h with
  | nil => exact Touches.nil
  | cons _ hdecode _ ih =>
    exact Touches.cons hdecode ih

theorem Touches.unique (h : Touches base bytes as) (h' : Touches base bytes as') : as = as' := by
  induction h generalizing as' with
  | nil =>
    generalize hbytes : ([] : List Byte) = bytes at h'
    cases h' with
    | nil => rfl
    | @cons b rest i as₁ hdecode _ =>
      have hb : b = [] := (append_eq_nil_iff.mp hbytes.symm).1
      have hnone := hdecode []
      rw [hb] at hnone
      cases hnone
  | @cons b rest i as₁ hdecode hrest ih =>
    generalize hbytes : b ++ rest = bytes at h'
    cases h' with
    | nil =>
      have hb : b = [] := (append_eq_nil_iff.mp hbytes).1
      have hnone := hdecode []
      rw [hb] at hnone
      cases hnone
    | @cons b' rest' i' as₂ hdecode' hrest' =>
      have hsame := hdecode rest
      rw [hbytes, hdecode' rest'] at hsame
      obtain ⟨hinstr, hlength⟩ := Prod.mk.inj (Option.some.inj hsame)
      obtain ⟨rfl, rfl⟩ := append_inj hbytes hlength.symm
      rw [hinstr, ih hrest']

end Touches

section Straight

variable {code : Word → Byte} {a : Word} {bytes bytes' : List Byte} {ps ps' : List Plain}

theorem Decodes.append (h : Decodes bytes ps) (h' : Decodes bytes' ps') :
    Decodes (bytes ++ bytes') (ps ++ ps') := by
  induction h with
  | nil => exact h'
  | cons hlength hdecode _ ih =>
    rw [append_assoc]
    exact Decodes.cons hlength hdecode ih

theorem Decodes.single {b : List Byte} {p : Plain} (hlength : b.length ≤ 15)
    (hdecode : ∀ tail, decode (b ++ tail) = some (.plain p, b.length)) : Decodes b [p] := by
  have h := Decodes.cons hlength hdecode Decodes.nil
  rwa [append_nil] at h

theorem CodeAt.left (h : CodeAt code a (bytes ++ bytes')) : CodeAt code a bytes := by
  intro k hk
  have hk' : k < (bytes ++ bytes').length := by
    rw [length_append]
    omega
  rw [h k hk', getElem_append_left hk]

theorem CodeAt.right (h : CodeAt code a (bytes ++ bytes')) :
    CodeAt code (a + BitVec.ofNat 32 bytes.length) bytes' := by
  intro k hk
  have hk' : bytes.length + k < (bytes ++ bytes').length := by
    rw [length_append]
    omega
  rw [BitVec.add_assoc, ← BitVec.ofNat_add, h _ hk', getElem_append_right (by omega)]
  simp

theorem CodeAt.window_eq (h : CodeAt code a bytes) (hlength : bytes.length ≤ 15) :
    ∃ tail, window code a = bytes ++ tail := by
  refine ⟨(window code a).drop bytes.length, ?_⟩
  have htake : (window code a).take bytes.length = bytes := by
    refine ext_getElem ?_ fun k hk hk' => ?_
    · simp [window, hlength]
    · simp [window, h k hk']
  conv_lhs => rw [← take_append_drop bytes.length (window code a), htake]

theorem execAll_append (ps ps' : List Plain)
    (c : Cpu) : execAll (ps ++ ps') c = (execAll ps c).bind (execAll ps') := by
  unfold execAll
  rw [foldlM_append]
  rfl

theorem run_straight {c c' : Cpu} (hdecodes : Decodes bytes ps) (hcode : CodeAt code a bytes)
    (hexec : execAll ps c = some c') : run code ps.length { cpu := c, eip := a } =
      some { cpu := c', eip := a + BitVec.ofNat 32 bytes.length } := by
  induction hdecodes generalizing a c with
  | nil =>
    cases hexec
    simp [run]
  | @cons b bytes p ps hlength hdecode _ ih =>
    obtain ⟨c₁, hfirst, hrest⟩ : ∃ c₁, exec c p = some c₁ ∧ execAll ps c₁ = some c' := by
      simpa [execAll, foldlM_cons, Option.bind_eq_some_iff] using hexec
    obtain ⟨tail, hwindow⟩ := hcode.left.window_eq hlength
    have hstep : step code { cpu := c, eip := a } =
        some { cpu := c₁, eip := a + BitVec.ofNat 32 b.length } := by
      unfold step
      simp only [hwindow, hdecode, hfirst, Option.map_some]
    rw [length_cons]
    unfold run
    rw [hstep, length_append, BitVec.ofNat_add, ← BitVec.add_assoc]
    exact ih hcode.right hrest

end Straight

/-! ### Comparison, division and displacements -/

theorem getLsbD_byteOf (v : Word)
    (k i : Nat) : (byteOf v k).getLsbD i = (decide (i < 8) && v.getLsbD (8 * k + i)) := by
  unfold byteOf
  rw [BitVec.getLsbD_extractLsb']

section Arithmetic

variable (a b : Word)

theorem sign_bne_ssubOverflow : ((a - b).msb != a.ssubOverflow b) = decide (a.toInt < b.toInt) := by
  have hsub : (a - b).toInt = (a.toInt - b.toInt).bmod (2 ^ 32) := BitVec.toInt_sub
  rw [BitVec.msb_eq_toInt, hsub, Int.bmod_def, Bool.eq_iff_iff]
  unfold BitVec.ssubOverflow
  split <;> grind

theorem sub_beq_zero : (a - b == 0) = decide (a = b) := by
  rw [Bool.eq_iff_iff, beq_iff_eq, decide_eq_true_iff]
  constructor
  · intro h
    have hadd : a - b + b = 0 + b := by rw [h]
    rw [BitVec.sub_add_cancel] at hadd
    exact hadd.trans (BitVec.zero_add b)
  · rintro rfl
    exact BitVec.sub_self a

theorem toInt_cdq : ((if a.msb then BitVec.allOnes 32 else 0) ++ a : BitVec 64).toInt = a.toInt := by
  have h : a.signExtend 64 = ((if a.msb then BitVec.allOnes 32 else 0) ++ a : BitVec 64) :=
    BitVec.signExtend_eq_append_of_le (by decide)
  rw [← h, BitVec.toInt_signExtend_of_le (by decide)]

variable {a b}

theorem toInt_tdiv (h : ¬ (a = BitVec.intMin 32 ∧ b = -1)) : a.toInt.tdiv b.toInt = (a.sdiv b).toInt := by
  refine (BitVec.toInt_sdiv_of_ne_or_ne a b ?_).symm
  by_cases ha : a = BitVec.intMin 32
  · exact .inr fun hb => h ⟨ha, hb⟩
  · exact .inl ha

theorem signExtend_ofInt {n : Int} (hlow : -128 ≤ n) (hhigh : n ≤ 127) :
    (BitVec.ofInt 8 n).signExtend 32 = BitVec.ofInt 32 n := by
  apply BitVec.eq_of_toInt_eq
  rw [BitVec.toInt_signExtend_of_le (by decide), BitVec.toInt_ofInt, BitVec.toInt_ofInt,
    Int.bmod_def, Int.bmod_def]
  split <;> split <;> omega

theorem byteOf_zero (v : Word) : byteOf v 0 = v.setWidth 8 := by
  refine BitVec.eq_of_getLsbD_eq fun i hi => ?_
  rw [getLsbD_byteOf, BitVec.getLsbD_setWidth, Nat.mul_zero, Nat.zero_add]

end Arithmetic

/-! ### Words in memory -/

def Within (a : Word) (n : Nat) (b : Word) : Prop := (b - a).toNat < n

section Words

variable {mem mem' : Memory} {a b v : Word}

theorem getLsbD_joinWord (b₀ b₁ b₂ b₃ : Byte) (i : Nat) : (joinWord b₀ b₁ b₂ b₃).getLsbD i =
      if i < 8 then b₀.getLsbD i else if i < 16 then b₁.getLsbD (i - 8)
      else if i < 24 then b₂.getLsbD (i - 16) else b₃.getLsbD (i - 24) := by
  unfold joinWord
  simp only [BitVec.getLsbD_append]
  split_ifs <;> first | rfl | omega

theorem joinWord_byteOf (v : Word) : joinWord (byteOf v 0) (byteOf v 1) (byteOf v 2) (byteOf v 3) = v := by
  refine BitVec.eq_of_getLsbD_eq fun i hi => ?_
  have hbit : ∀ k j, j < 8 → (byteOf v k).getLsbD j = v.getLsbD (8 * k + j) := by
    intro k j hj
    rw [getLsbD_byteOf, decide_eq_true hj, Bool.true_and]
  rw [getLsbD_joinWord]
  split_ifs
  · rw [hbit _ _ (by omega), Nat.mul_zero, Nat.zero_add]
  · rw [hbit _ _ (by omega), show 8 * 1 + (i - 8) = i by omega]
  · rw [hbit _ _ (by omega), show 8 * 2 + (i - 16) = i by omega]
  · rw [hbit _ _ (by omega), show 8 * 3 + (i - 24) = i by omega]

@[simp] theorem byteOf_joinWord_zero (b₀ b₁ b₂ b₃ : Byte) : byteOf (joinWord b₀ b₁ b₂ b₃) 0 = b₀ := by
  refine BitVec.eq_of_getLsbD_eq fun i hi => ?_
  rw [getLsbD_byteOf, getLsbD_joinWord, decide_eq_true hi, Nat.mul_zero, Nat.zero_add,
    if_pos hi, Bool.true_and]

theorem within_offset (a : Word) {k n : Nat} (hk : k < n)
    (hn : n ≤ 2 ^ 32) : Within a n (a + BitVec.ofNat 32 k) := by
  unfold Within
  rw [BitVec.add_comm, BitVec.add_sub_cancel, BitVec.toNat_ofNat]
  omega

theorem load32_congr (h : ∀ b, Within a 4 b → mem' b = mem b) : load32 mem' a = load32 mem a := by
  have hbyte : ∀ k, k < 4 → mem' (a + BitVec.ofNat 32 k) = mem (a + BitVec.ofNat 32 k) :=
    fun k hk => h _ (within_offset a hk (by decide))
  have h₀ := hbyte 0 (by decide)
  rw [BitVec.add_zero] at h₀
  have h₁ : mem' (a + 1) = mem (a + 1) := hbyte 1 (by decide)
  have h₂ : mem' (a + 2) = mem (a + 2) := hbyte 2 (by decide)
  have h₃ : mem' (a + 3) = mem (a + 3) := hbyte 3 (by decide)
  unfold load32
  rw [h₀, h₁, h₂, h₃]

@[simp] theorem load32_store32 (mem : Memory) (a v : Word) : load32 (store32 mem a v) a = v := by
  have hoffset : ∀ k : Word, a + k - a = k := by
    intro k
    rw [BitVec.add_comm, BitVec.add_sub_cancel]
  unfold load32 store32
  simp only [hoffset, BitVec.sub_self]
  exact joinWord_byteOf v

theorem store32_of_not_within (h : ¬ Within a 4 b) : store32 mem a v b = mem b := if_neg h

theorem store8_of_ne {x : Byte} (h : b ≠ a) : store8 mem a x b = mem b := Function.update_of_ne h _ _

end Words

end X86
