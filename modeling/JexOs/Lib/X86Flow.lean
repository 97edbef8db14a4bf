import JexOs.Lib.X86
import Mathlib.Logic.Relation

/-!
# Code with jumps

System calls go to the platform, and a byte is added to memory only where the program may write. What a piece of
code does is said by the first state outside of it.
-/

namespace X86

/-- What surrounds a program: where it may write, and what a system call does, which is nothing where
it does not come back. -/
structure Platform where
  writable : Word → Bool
  syscall : Cpu → Option Cpu

namespace Platform

def addByte (p : Platform) (c : Cpu) : Option Cpu :=
  let a := c.regs .eax
  let old := c.mem a
  let added := byteOf a 0
  if p.writable a then
    some { c with
      mem := store8 c.mem a (old + added)
      flags :=
        { zero := old + added == 0
          sign := (old + added).msb
          overflow := old.saddOverflow added } }
  else none

/-- One instruction, with the two that the machine alone does not execute. -/
def step (p : Platform) (code : Word → Byte) (s : State) : Option State :=
  let head := (window code s.eip).take 2
  if head = [0x00, 0x00] then
    (p.addByte s.cpu).map fun c =>
      { cpu := c
        eip := s.eip + 2 }
  else if head = [0xCD, 0x80] then
    (p.syscall s.cpu).map fun c =>
      { cpu := c
        eip := s.eip + 2 }
  else X86.step code s

end Platform

section Step

variable {p : Platform} {code : Word → Byte} {a : Word} {b : List Byte} {c c' : Cpu}

theorem Platform.step_of_step {s s' : State} (h : X86.step code s = some s') : p.step code s = some s' := by
  have hsplit := List.take_append_drop 2 (window code s.eip)
  unfold Platform.step
  dsimp only
  split
  · rename_i hzero
    rw [hzero] at hsplit
    unfold X86.step at h
    rw [← hsplit] at h
    cases h
  · split
    · rename_i hint
      rw [hint] at hsplit
      unfold X86.step at h
      rw [← hsplit] at h
      cases h
    · exact h

theorem step_eq {i : Instr} (hcode : CodeAt code a b) (hlength : b.length ≤ 15)
    (hdecode : ∀ tail, decode (b ++ tail) = some (i, b.length)) : X86.step code { cpu := c, eip := a } =
      let next := a + BitVec.ofNat 32 b.length
      match i with
      | .plain q => (exec c q).map fun c => { cpu := c, eip := next }
      | .jcc cc rel => some { cpu := c, eip := if c.cond cc then next + rel else next }
      | .jmp rel => some { cpu := c, eip := next + rel }
      | .call rel => some { cpu := c.push next, eip := next + rel }
      | .int _ => none := by
  obtain ⟨tail, hwindow⟩ := hcode.window_eq hlength
  unfold X86.step
  simp only [hwindow, hdecode]
  cases i <;> rfl

theorem Platform.step_plain {q : Plain} (hcode : CodeAt code a b) (hlength : b.length ≤ 15)
    (hdecode : ∀ tail, decode (b ++ tail) = some (.plain q, b.length)) (hexec : exec c q = some c') :
    p.step code { cpu := c, eip := a } = some { cpu := c', eip := a + BitVec.ofNat 32 b.length } := by
  apply Platform.step_of_step
  rw [step_eq hcode hlength hdecode]
  simp only [hexec, Option.map_some]

theorem Platform.step_jcc {cc : Cond} {rel : Word} (hcode : CodeAt code a b) (hlength : b.length ≤ 15)
    (hdecode : ∀ tail, decode (b ++ tail) = some (.jcc cc rel, b.length)) :
    p.step code { cpu := c, eip := a } =
      some { cpu := c
             eip := if c.cond cc then a + BitVec.ofNat 32 b.length + rel
               else a + BitVec.ofNat 32 b.length } := by
  apply Platform.step_of_step
  rw [step_eq hcode hlength hdecode]

theorem Platform.step_jmp {rel : Word} (hcode : CodeAt code a b) (hlength : b.length ≤ 15)
    (hdecode : ∀ tail, decode (b ++ tail) = some (.jmp rel, b.length)) : p.step code { cpu := c, eip := a } =
      some { cpu := c, eip := a + BitVec.ofNat 32 b.length + rel } := by
  apply Platform.step_of_step
  rw [step_eq hcode hlength hdecode]

theorem CodeAt.take_two {x y : Byte} (hcode : CodeAt code a [x, y]) : (window code a).take 2 = [x, y] := by
  obtain ⟨tail, hwindow⟩ := hcode.window_eq (by simp)
  rw [hwindow]
  rfl

theorem Platform.step_add (hcode : CodeAt code a [0x00, 0x00]) :
    p.step code { cpu := c, eip := a } = (p.addByte c).map fun c => { cpu := c, eip := a + 2 } := by
  exact if_pos hcode.take_two

end Step

/-- The run from the first state executes instructions of the part, and the second state is the first
one outside of it. -/
inductive Departs (p : Platform) (code : Word → Byte) (inside : Word → Prop) : State → State → Prop where
  | out {s : State} (h : ¬ inside s.eip) : Departs p code inside s s
  | step {s s' s'' : State} (h : inside s.eip) (hstep : p.step code s = some s')
      (hrest : Departs p code inside s' s'') : Departs p code inside s s''

def Comes (p : Platform) (code : Word → Byte) : State → State → Prop :=
  Relation.ReflTransGen fun s s' => p.step code s = some s'

/-- The code of `n` bytes at the address, entered at its start, is left at its end. -/
def Block (p : Platform) (code : Word → Byte) (a : Word) (n : Nat) (c c' : Cpu) : Prop :=
  Departs p code (Within a n) { cpu := c, eip := a } { cpu := c', eip := a + BitVec.ofNat 32 n }

section Departs

variable {p : Platform} {code : Word → Byte} {inside inside' : Word → Prop} {s s' t t' : State}

theorem Comes.refl (s : State) : Comes p code s s := Relation.ReflTransGen.refl

theorem Comes.trans {s'' : State} (h : Comes p code s s') (h' : Comes p code s' s'') :
    Comes p code s s'' := Relation.ReflTransGen.trans h h'

variable (h : Departs p code inside s t)

include h

theorem Departs.comes : Comes p code s t := by
  induction h with
  | out _ => exact Comes.refl _
  | step _ hstep _ ih => exact Relation.ReflTransGen.head hstep ih

theorem Departs.unique (h' : Departs p code inside s t') : t = t' := by
  induction h with
  | out h =>
    cases h' with
    | out _ => rfl
    | step hin _ _ => exact absurd hin h
  | step hin hstep _ ih =>
    cases h' with
    | out hout => exact absurd hin hout
    | step _ hstep' hrest' =>
      rw [hstep] at hstep'
      cases hstep'
      exact ih hrest'

omit h in
theorem Departs.through (h : Departs p code inside' s s') (hsub : ∀ {b}, inside' b → inside b)
    (hrest : Departs p code inside s' t) : Departs p code inside s t := by
  induction h with
  | out _ => exact hrest
  | step hin hstep _ ih => exact Departs.step (hsub hin) hstep (ih hrest)

theorem Departs.rest (hpart : Departs p code inside' s s')
    (hsub : ∀ {b}, inside' b → inside b) : Departs p code inside s' t := by
  induction hpart with
  | out _ => exact h
  | step hin hstep _ ih =>
    cases h with
    | out hout => exact absurd (hsub hin) hout
    | step _ hstep' hrest =>
      rw [hstep] at hstep'
      cases hstep'
      exact ih hrest

theorem Departs.moves (hin : inside s.eip) : p.step code s ≠ none := by
  cases h with
  | out hout => exact absurd hin hout
  | step _ hstep _ =>
    rw [hstep]
    exact Option.some_ne_none _

theorem Departs.next (hin : inside s.eip) (hstep : p.step code s = some s') : Departs p code inside s' t := by
  cases h with
  | out hout => exact absurd hin hout
  | step _ hstep' hrest =>
    rw [hstep] at hstep'
    cases hstep'
    exact hrest

end Departs

def placed (bytes : List Byte) (a : Word) : Word → Byte := fun b => bytes.getD (b - a).toNat 0

section Places

variable {a b : Word} {k m n : Nat}

theorem within_at (hk : k < n) (hn : n ≤ 2 ^ 32) : Within a n (a + BitVec.ofNat 32 k) :=
  within_offset a hk hn

theorem not_within_at (hk : k < 2 ^ 32) (hn : n ≤ k) : ¬ Within a n (a + BitVec.ofNat 32 k) := by
  unfold Within
  rw [BitVec.add_comm, BitVec.add_sub_cancel, BitVec.toNat_ofNat]
  omega

theorem within_part (h : Within (a + BitVec.ofNat 32 k) m b) (hle : k + m ≤ n)
    (hn : n ≤ 2 ^ 32) : Within a n b := by
  have hb : b - a = (b - (a + BitVec.ofNat 32 k)) + BitVec.ofNat 32 k := by
    rw [← BitVec.sub_sub, BitVec.sub_add_cancel]
  unfold Within at h ⊢
  rw [hb, BitVec.toNat_add, BitVec.toNat_ofNat]
  omega

theorem codeAt_placed {bytes : List Byte} (h : bytes.length ≤ 2 ^ 32)
    (a : Word) : CodeAt (placed bytes a) a bytes := by
  intro k hk
  have hoffset : (a + BitVec.ofNat 32 k - a).toNat = k := by
    rw [BitVec.add_comm, BitVec.add_sub_cancel, BitVec.toNat_ofNat]
    omega
  unfold placed
  rw [hoffset]
  simp [hk]

theorem add_ofNat_ofNat (a : Word) (k m : Nat) :
    a + BitVec.ofNat 32 k + BitVec.ofNat 32 m = a + BitVec.ofNat 32 (k + m) := by
  rw [BitVec.add_assoc, ← BitVec.ofNat_add]

end Places

section Blocks

variable {p : Platform} {code : Word → Byte} {a : Word} {m n k : Nat} {c c₁ c₂ : Cpu}

theorem Block.nil : Block p code a 0 c c := by
  unfold Block
  rw [BitVec.add_zero]
  exact Departs.out (Nat.not_lt_zero _)

theorem Block.unique (h : Block p code a n c c₁) (h' : Block p code a n c c₂) : c₁ = c₂ :=
  congrArg State.cpu (Departs.unique h h')

theorem Block.through {inside : Word → Prop} {t : State} (h : Block p code (a + BitVec.ofNat 32 k) m c c₁)
    (hsub : ∀ {b}, Within (a + BitVec.ofNat 32 k) m b → inside b)
    (hrest : Departs p code inside { cpu := c₁, eip := a + BitVec.ofNat 32 (k + m) } t) :
    Departs p code inside { cpu := c, eip := a + BitVec.ofNat 32 k } t := by
  refine Departs.through h hsub ?_
  rw [add_ofNat_ofNat]
  exact hrest

theorem Block.append (h : Block p code a m c c₁)
    (h' : Block p code (a + BitVec.ofNat 32 m) n c₁ c₂) (hsize : m + n < 2 ^ 32) :
    Block p code a (m + n) c c₂ := by
  have hend : Departs p code (Within a (m + n)) { cpu := c₂, eip := a + BitVec.ofNat 32 (m + n) }
      { cpu := c₂, eip := a + BitVec.ofNat 32 (m + n) } :=
    Departs.out (not_within_at hsize le_rfl)
  have hsecond := Block.through h' (fun hb => within_part hb le_rfl hsize.le) hend
  refine Departs.through h (fun hb => ?_) hsecond
  exact hb.trans_le (Nat.le_add_right m n)

theorem departs_straight {inside : Word → Prop} {bytes : List Byte} {ps : List Plain} {t : State}
    (hdecodes : Decodes bytes ps) (hcode : CodeAt code a bytes)
    (hinside : ∀ k, k < bytes.length → inside (a + BitVec.ofNat 32 k)) (hexec : execAll ps c = some c₁)
    (hrest : Departs p code inside { cpu := c₁, eip := a + BitVec.ofNat 32 bytes.length } t) :
    Departs p code inside { cpu := c, eip := a } t := by
  induction hdecodes generalizing a c with
  | nil =>
    cases hexec
    simpa using hrest
  | @cons b bytes q qs hlength hdecode _ ih =>
    obtain ⟨c', hfirst, hexec'⟩ : ∃ c', exec c q = some c' ∧ execAll qs c' = some c₁ := by
      simpa [execAll, List.foldlM_cons, Option.bind_eq_some_iff] using hexec
    have hpos : 0 < b.length := by
      cases b with
      | nil => cases hdecode []
      | cons _ _ => exact Nat.succ_pos _
    rw [List.length_append] at hinside hrest
    have hin : inside a := by
      have h := hinside 0 (by omega)
      rwa [BitVec.add_zero] at h
    refine Departs.step hin (Platform.step_plain hcode.left hlength hdecode hfirst) ?_
    refine ih hcode.right (fun k hk => ?_) hexec' ?_
    · rw [add_ofNat_ofNat]
      exact hinside _ (by omega)
    · rw [add_ofNat_ofNat]
      exact hrest

theorem Block.straight {bytes : List Byte} {ps : List Plain} (hdecodes : Decodes bytes ps)
    (hcode : CodeAt code a bytes) (hsize : bytes.length < 2 ^ 32) (hexec : execAll ps c = some c₁) :
    Block p code a bytes.length c c₁ :=
  departs_straight hdecodes hcode (fun _ hk => within_at hk hsize.le) hexec
    (Departs.out (not_within_at hsize le_rfl))

end Blocks

end X86
