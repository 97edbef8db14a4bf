import JexOs.Syscall
import JexOs.Proof.Paging

/-!
# Pointers from user space

What the check of a user's pointer accepts does not wrap around and ends below 0xC0000000. The kernel is linked at
1 MiB, so its memory is safe exactly from the ranges that keep out of it by themselves.
-/

namespace JexOs.Syscall

open ByteMem JexFs Loop List
open Paging (Machine present userBit)

def kernelStart : Nat := 0x100000

def SupervisorOnly (m : Machine) (page : Nat) : Prop :=
  present (m.pde (page / 1024)) ∧ present (m.pte (page / 1024) (page % 1024)) ∧
    ¬ (userBit (m.pde (page / 1024)) ∧ userBit (m.pte (page / 1024) (page % 1024)))

instance (m : Machine) (page : Nat) : Decidable (SupervisorOnly m page) :=
  inferInstanceAs (Decidable (_ ∧ _ ∧ ¬ (_ ∧ _)))

/-- Address `a` is in the kernel image, or on a page of the supervisor. -/
def KernelByte (m : Machine) (kernelEnd a : Nat) : Prop :=
  kernelStart ≤ a ∧ a < kernelEnd ∨ SupervisorOnly m (a / 4096)

/-- The test that is missing: the range lies on one side of the image, and none of its pages is the
supervisor's. -/
def avoidsKernel (m : Machine) (kernelEnd ptr len : Nat) : Bool :=
  len == 0 || decide (ptr + len ≤ kernelStart ∨ kernelEnd ≤ ptr) &&
    (List.range ((ptr + len - 1) / 4096 - ptr / 4096 + 1)).all fun i =>
      ! decide (SupervisorOnly m (ptr / 4096 + i))

def ClearRange (m : Machine) (kernelEnd ptr len : Nat) : Prop :=
  ∀ a, ptr ≤ a → a < ptr + len → ¬ KernelByte m kernelEnd a

def Registers.pointer (regs : Registers) : Option (UInt32 × UInt32) :=
  if regs.eax = sysPrint ∨ regs.eax = sysOpen ∨ regs.eax = sysExecve then some (regs.ebx, 1)
  else if regs.eax = sysRead ∨ regs.eax = sysWrite then some (regs.ecx, regs.edx)
  else if regs.eax = sysWaitpid then some (regs.ecx, 4)
  else none

/-- The range a system call was given keeps out of the kernel if it is accepted, and so does what is written. -/
def KeepsOut (m : Machine) (kernelEnd : Nat) (regs : Registers) : Prop :=
  (∀ ptr len, regs.pointer = some (ptr, len) → isValidUserPtr ptr len = true →
    ClearRange m kernelEnd ptr.toNat len.toNat) ∧
  ∀ v mem mem' code, serve v mem code regs = .ok mem' → ∀ a, KernelByte m kernelEnd a →
    mem' a = mem a

section Ranges

variable {m : Machine} {kernelEnd ptr len : Nat}

theorem avoidsKernel_iff (hend : kernelStart < kernelEnd) :
    avoidsKernel m kernelEnd ptr len = true ↔ ClearRange m kernelEnd ptr len := by
  unfold avoidsKernel
  rcases Nat.eq_zero_or_pos len with rfl | hpos
  · simp only [beq_self_eq_true, Bool.true_or, true_iff]
    intro a hlow hhigh
    omega
  have hne : (len == 0) = false := by
    rw [beq_eq_false_iff_ne]
    omega
  rw [hne, Bool.false_or, Bool.and_eq_true, decide_eq_true_iff, all_eq_true]
  constructor
  · rintro ⟨hside, hpages⟩ a hlow hhigh (⟨hstart, hstop⟩ | hpage)
    · omega
    · have hcheck := hpages (a / 4096 - ptr / 4096) (mem_range.mpr (by omega))
      rw [show ptr / 4096 + (a / 4096 - ptr / 4096) = a / 4096 by omega] at hcheck
      simp [hpage] at hcheck
  · intro hclear
    refine ⟨?_, fun i hi => ?_⟩
    · by_contra hside
      refine hclear (max ptr kernelStart) (le_max_left _ _) (by omega) (.inl ⟨?_, ?_⟩)
      · exact le_max_right _ _
      · omega
    · have hi' := mem_range.mp hi
      have hbyte := hclear (max ptr ((ptr / 4096 + i) * 4096)) (le_max_left _ _) (by omega)
      have hpage : max ptr ((ptr / 4096 + i) * 4096) / 4096 = ptr / 4096 + i := by omega
      have hsupervisor : ¬ SupervisorOnly m (ptr / 4096 + i) := fun hpage' =>
        hbyte (.inr (hpage.symm ▸ hpage'))
      simpa using hsupervisor

theorem isValidUserPtr_iff (addr len : UInt32) : isValidUserPtr addr len = true ↔
      addr.toNat ≠ 0 ∧ addr.toNat < 0xC0000000 ∧ addr.toNat + len.toNat ≤ 0xC0000000 := by
  have hlen := len.toNat_lt
  have hsum : (addr + len).toNat = (addr.toNat + len.toNat) % 2 ^ 32 := UInt32.toNat_add addr len
  have hzero : addr = 0 ↔ addr.toNat = 0 := by
    rw [← UInt32.toNat_inj]
    rfl
  unfold isValidUserPtr
  simp only [hzero, ge_iff_le, gt_iff_lt, UInt32.le_iff_toNat_le, UInt32.lt_iff_toNat_lt, hsum]
  change (if addr.toNat = 0 ∨ 0xC0000000 ≤ addr.toNat then false
    else if (addr.toNat + len.toNat) % 2 ^ 32 < addr.toNat then false
    else if 0xC0000000 < (addr.toNat + len.toNat) % 2 ^ 32 then false else true) = true ↔ _
  split_ifs <;> simp <;> omega

end Ranges

section Writes

variable {v : Vfs} {mem mem' src : Mem} {fd : Int} {n size : Nat}

theorem jexfsRead_length_le {sb : Superblock} {d : Mem} {idx offset : Nat} {bytes : List UInt8}
    (h : jexfsRead sb d idx size offset = .ok bytes) : bytes.length ≤ size := by
  obtain ⟨inode, -, hrest⟩ := bind_eq_ok.mp h
  split at hrest
  · cases hrest
    exact Nat.zero_le _
  · next hoff =>
      have hclamp : (if inode.size.toNat < (offset + size) % 2 ^ 32 then inode.size.toNat - offset
          else size) ≤ size := by
        split
        · omega
        · exact le_rfl
      -- what is copied and what remains add up to the clamped size
      generalize (if inode.size.toNat < (offset + size) % 2 ^ 32 then inode.size.toNat - offset
        else size) = clamped at hclamp hrest
      have hstep : ∀ s t : ReadState, s.out.length + s.remain = clamped →
          readBody d inode s = .ok (.again t) → t.out.length + t.remain = clamped := by
        intro s t hs hbody
        unfold readBody at hbody
        split at hbody
        · cases hbody
        · dsimp only at hbody
          split at hbody
          · cases hbody
          · cases hbody
            simp only [length_append, length_map, length_range]
            omega
      obtain ⟨s, hs, hleave⟩ := run_invariant hstep (by simp) hrest
      unfold readBody at hleave
      split at hleave
      · cases hleave
        omega
      · dsimp only at hleave
        split at hleave
        · cases hleave
          omega
        · cases hleave

theorem devtmpfsRead_le (h : devtmpfsRead v fd size = some (n, src)) : n ≤ size := by
  unfold devtmpfsRead at h
  split at h
  · split at h
    · cases h
    · split at h
      · cases h
        exact Nat.zero_le _
      · next f _ hmore =>
          obtain ⟨rfl, -⟩ := h
          split
          · next hlt =>
              unfold toSigned at hlt hmore ⊢
              split_ifs at hlt hmore ⊢ <;> omega
          · exact le_rfl
  · cases h

theorem fsRead_le (h : fsRead v fd size = .ok (n, src)) : n ≤ size := by
  unfold fsRead at h
  split at h
  · split at h
    · cases hread : devtmpfsRead v fd size with
      | none =>
        rw [hread] at h
        cases h
        exact Nat.zero_le _
      | some r =>
        rw [hread] at h
        cases h
        exact devtmpfsRead_le hread
    · cases h
      exact Nat.zero_le _
  · split at h
    · split at h
      · cases h
        exact Nat.zero_le _
      · next idx offset _ =>
          cases hread : jexfsRead v.sb v.disk idx size offset with
          | error e =>
            rw [hread] at h
            cases h
          | ok bytes =>
            rw [hread] at h
            cases h
            exact jexfsRead_length_le hread
    · cases h
      exact Nat.zero_le _

/-- A call that writes to the caller's memory does so behind a pointer that was accepted. -/
def Accepted (regs : Registers) : Request → Prop
  | .read _ buffer size =>
    regs.pointer = some (buffer, size) ∧ isValidUserPtr buffer size = true
  | .waitpid _ status _ => regs.pointer = some (status, 4) ∧ isValidUserPtr status 4 = true
  | _ => True

theorem accepted_syscallHandler (regs : Registers) : Accepted regs (syscallHandler regs) := by
  refine iteInduction (fun _ => iteInduction (fun _ => trivial) fun _ => trivial) fun _ => ?_
  refine iteInduction (fun _ => trivial) fun _ => ?_
  refine iteInduction (fun _ => iteInduction (fun _ => trivial) fun _ => trivial) fun _ => ?_
  refine iteInduction (fun hread => iteInduction (fun _ => trivial) fun hvalid => ?_) fun _ => ?_
  · refine ⟨?_, by simpa using hvalid⟩
    unfold Registers.pointer
    rw [hread]
    rfl
  refine iteInduction (fun _ => iteInduction (fun _ => trivial) fun _ => trivial) fun _ => ?_
  refine iteInduction (fun _ => trivial) fun _ => ?_
  refine iteInduction (fun _ => trivial) fun _ => ?_
  refine iteInduction (fun _ => trivial) fun _ => ?_
  refine iteInduction (fun _ => iteInduction (fun _ => trivial) fun _ => trivial) fun _ => ?_
  refine iteInduction (fun _ => trivial) fun _ => ?_
  refine iteInduction (fun hwait => iteInduction (fun _ => trivial) fun hvalid => ?_) fun _ => ?_
  · refine ⟨?_, by simpa using hvalid⟩
    unfold Registers.pointer
    rw [hwait]
    rfl
  refine iteInduction (fun _ => trivial) fun _ => ?_
  refine iteInduction (fun _ => trivial) fun _ => ?_
  refine iteInduction (fun _ => trivial) fun _ => ?_
  refine iteInduction (fun _ => trivial) fun _ => ?_
  refine iteInduction (fun _ => trivial) fun _ => ?_
  exact iteInduction (fun _ => trivial) fun _ => trivial

theorem serve_writes {regs : Registers} {code : Option Int} (h : serve v mem code regs = .ok mem') :
    mem' = mem ∨ ∃ ptr len, regs.pointer = some (ptr, len) ∧ isValidUserPtr ptr len = true ∧
      ∀ a, ¬ (ptr.toNat ≤ a ∧ a < ptr.toNat + len.toNat) → mem' a = mem a := by
  have haccepted := accepted_syscallHandler regs
  unfold serve at h
  split at h
  · next fd buffer size hrequest =>
      right
      rw [hrequest] at haccepted
      obtain ⟨hpointer, hvalid⟩ := haccepted
      refine ⟨buffer, size, hpointer, hvalid, fun a hout => ?_⟩
      cases hread : fsRead v (toSigned fd.toNat) size.toNat with
      | error e =>
        rw [hread] at h
        cases h
      | ok r =>
        rw [hread] at h
        cases h
        have hle := fsRead_le hread
        rcases lt_or_ge a buffer.toNat with hlt | hge
        · exact blit_of_lt hlt
        · exact blit_of_ge (by omega)
  · next pid status options hrequest =>
      split at h
      · next code =>
          right
          rw [hrequest] at haccepted
          obtain ⟨hpointer, hvalid⟩ := haccepted
          refine ⟨status, 4, hpointer, hvalid, fun a hout => ?_⟩
          have hfour : (4 : UInt32).toNat = 4 := rfl
          cases h
          rcases lt_or_ge a status.toNat with hlt | hge
          · exact blit_of_lt hlt
          · exact blit_of_ge (by omega)
      · cases h
        exact .inl rfl
  · cases h
    exact .inl rfl

end Writes

section Check

variable {m : Machine} {kernelEnd : Nat}

theorem keepsOut_iff (hend : kernelStart < kernelEnd) (regs : Registers) : KeepsOut m kernelEnd regs ↔
      ∀ ptr len, regs.pointer = some (ptr, len) → isValidUserPtr ptr len = true →
        avoidsKernel m kernelEnd ptr.toNat len.toNat = true := by
  constructor
  · rintro ⟨hclear, -⟩ ptr len hpointer hvalid
    exact (avoidsKernel_iff hend).mpr (hclear ptr len hpointer hvalid)
  · intro havoids
    refine ⟨fun ptr len hpointer hvalid => (avoidsKernel_iff hend).mp (havoids ptr len hpointer hvalid),
      fun v mem mem' code hserve a hkernel => ?_⟩
    obtain rfl | ⟨ptr, len, hpointer, hvalid, hother⟩ := serve_writes hserve
    · rfl
    · refine hother a fun hin => ?_
      exact (avoidsKernel_iff hend).mp (havoids ptr len hpointer hvalid) a hin.1 hin.2 hkernel

/-- A pointer is kept out of the kernel exactly where the range lies beside it or does not pass the arithmetic. -/
theorem pointer_check_iff (hend : kernelStart < kernelEnd) :
    (∀ ptr len : UInt32, (isValidUserPtr ptr len = true →
        ClearRange m kernelEnd ptr.toNat len.toNat) ↔
      (ptr.toNat = 0 ∨ 0xC0000000 ≤ ptr.toNat ∨ 0xC0000000 < ptr.toNat + len.toNat ∨
        avoidsKernel m kernelEnd ptr.toNat len.toNat = true)) ∧ ∀ regs : Registers, KeepsOut m kernelEnd regs ↔
      ∀ ptr len, regs.pointer = some (ptr, len) →
        ptr.toNat = 0 ∨ 0xC0000000 ≤ ptr.toNat ∨ 0xC0000000 < ptr.toNat + len.toNat ∨
          avoidsKernel m kernelEnd ptr.toNat len.toNat = true := by
  have hcheck : ∀ ptr len : UInt32, (isValidUserPtr ptr len = true →
      avoidsKernel m kernelEnd ptr.toNat len.toNat = true) ↔
      (ptr.toNat = 0 ∨ 0xC0000000 ≤ ptr.toNat ∨ 0xC0000000 < ptr.toNat + len.toNat ∨
        avoidsKernel m kernelEnd ptr.toNat len.toNat = true) := by
    intro ptr len
    rw [isValidUserPtr_iff]
    refine ⟨fun havoids => ?_, fun hcond hvalid => ?_⟩
    · by_cases hvalid : ptr.toNat ≠ 0 ∧ ptr.toNat < 0xC0000000 ∧ ptr.toNat + len.toNat ≤ 0xC0000000
      · exact .inr (.inr (.inr (havoids hvalid)))
      · omega
    · obtain hzero | hhigh | hcross | havoids := hcond
      · exact absurd hzero hvalid.1
      · omega
      · omega
      · exact havoids
  refine ⟨fun ptr len => ?_, fun regs => ?_⟩
  · rw [← hcheck, ← avoidsKernel_iff hend]
  · rw [keepsOut_iff hend]
    exact forall_congr' fun ptr => forall_congr' fun len => forall_congr' fun _ => hcheck ptr len

end Check

def userMachine : Machine :=
  { phys := fun f w =>
      if f = 300 ∧ w = 256 then Paging.entryFor (700 * 4096) 7
      else if f = 700 ∧ w = 0 then Paging.entryFor (701 * 4096) 7
      else 0
    pmm :=
      { bitmap := fun _ => 0
        usedBlocks := 0 }
    dir := 300
    active := true }

/-- A read into that page. -/
theorem keepsOut_user : KeepsOut userMachine 0x200000
      { eax := sysRead, ebx := 0, ecx := 0x40000000, edx := 100 } := by
  refine ((pointer_check_iff (by decide)).2 _).mpr fun ptr len hpointer => ?_
  cases hpointer
  exact .inr (.inr (.inr (by decide)))

/-- `waitpid` with a status pointer into the kernel's own code stores the exit code there. -/
theorem pointer_check_unsound : ¬ ∀ m kernelEnd, kernelStart < kernelEnd →
    (∀ ptr len : UInt32, isValidUserPtr ptr len = true → ClearRange m kernelEnd ptr.toNat len.toNat) ∧
    ∀ regs, KeepsOut m kernelEnd regs := by
  intro hclaim
  obtain ⟨-, hkeeps⟩ := hclaim userMachine 0x200000 (by decide)
  obtain ⟨-, hwrites⟩ := hkeeps { eax := sysWaitpid, ebx := 0xFFFFFFFF, ecx := 0x100000, edx := 0 }
  have hbyte := hwrites
    { sb := Superblock.decode fun _ => 0, disk := fun _ => 0, fileTable := fun _ => none,
      mounted := false, openFiles := fun _ => none } (fun _ => 0) _ (some 5) rfl 0x100000 (.inl (by decide))
  exact absurd hbyte (by decide)

end JexOs.Syscall
