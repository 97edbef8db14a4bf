import JexOs.Paging

/-!
# Kernel stacks

`alloc_kernel_stack` and `free_kernel_stack` of `src/mm/paging.c`. The stacks live behind directory
entry 1023, whose page table all directories share; its entries are reached through the recursive
window as an array. Nothing bounds the index into that array, so an index of 1024 and more is the
address it is: the pages above the window are those of entry 1023 itself.
-/

namespace JexOs.Kstack

open Paging

def kstackVaddrBase : Nat := 0xFFC00000
def kstackSize : Nat := 32768
def kstackPages : Nat := kstackSize / 4096

/-- `slot_idx + i`, where `slot_idx` is `pid * (KSTACK_SIZE / 4096)`. -/
def kstackSlot (pid i : Nat) : Nat := (pid * kstackPages + i) % 2 ^ 32

/-- `&kstack_pt->pages[n]` -/
def slotPtr (n : Nat) : Nat := (ptePtr kstackPdeIdx + 4 * n) % 2 ^ 32

/-- The search for an occupied slot; `n` slots are left, from `i` on. -/
def slotsFree (pid : Nat) : (n i : Nat) → Machine → Option Bool
  | 0, _, _ => some true
  | n + 1, i, m => do
      if present (← m.load (slotPtr (kstackSlot pid i))) then some false
      else slotsFree pid n (i + 1) m

/-- Give back the frame of slot `i` and clear its present bit. -/
def dropSlot (pid i : Nat) (m : Machine) : Option Machine := do
  let entry ← m.load (slotPtr (kstackSlot pid i))
  let m := { m with pmm := Pmm.pmmFreeBlock m.pmm (frameOf entry * 4096) }
  m.store (slotPtr (kstackSlot pid i)) (entry / 2 * 2)

/-- The rollback: the first `n` slots. -/
def dropSlots (pid : Nat) : (n : Nat) → Machine → Option Machine
  | 0, m => some m
  | n + 1, m => do dropSlot pid n (← dropSlots pid n m)

/-- The mapping loop; the flag tells whether every frame could be had. -/
def mapSlots (pid : Nat) : (n i : Nat) → Machine → Option (Bool × Machine)
  | 0, _, m => some (true, m)
  | n + 1, i, m => do
      let (phys, m) := allocBlock m
      if phys = 0 then some (false, ← dropSlots pid i m)
      else
        let m ← m.store (slotPtr (kstackSlot pid i)) (entryFor phys 3)
        mapSlots pid n (i + 1) m

/-- `alloc_kernel_stack`; `kernelDirectory` is the frame of the global `kernel_directory`, which
the kernel reads through its own image. -/
def allocKernelStack (kernelDirectory : Nat) (m : Machine) (pid : Nat) : Option (Nat × Machine) := do
  if ¬ present (m.phys kernelDirectory kstackPdeIdx) then some (0, m)
  else if ← slotsFree pid kstackPages 0 m then
    let (done, m) ← mapSlots pid kstackPages 0 m
    some (if done then (kstackVaddrBase + pid * kstackSize) % 2 ^ 32 else 0, m)
  else
    some (0, m)

/-- The loop of `free_kernel_stack`. -/
def freeSlots (pid : Nat) : (n i : Nat) → Machine → Option Machine
  | 0, _, m => some m
  | n + 1, i, m => do
      let entry ← m.load (slotPtr (kstackSlot pid i))
      let m ← if present entry then dropSlot pid i m else some m
      freeSlots pid n (i + 1) m

def freeKernelStack (kernelDirectory : Nat) (m : Machine) (pid : Nat) : Option Machine :=
  if ¬ present (m.phys kernelDirectory kstackPdeIdx) then some m
  else freeSlots pid kstackPages 0 m

end JexOs.Kstack
