import JexOs.Malloc
import JexOs.Sbrk

/-!
# The heap of a user program, over the kernel's break

`malloc` of `src/user/lib/stdlib.c` once more, this time on top of `sbrk` itself: the system call hands its argument
on as a signed word, so a large request may take the break down. The search and the splitting are those of the heap
alone. The header of a new block is written in user mode, and the program dies if that page is not its own.
-/

namespace JexOs.UserHeap

open ByteMem Malloc
open Paging (Machine frameOf)

/-- A word of 32 bits as an `intptr_t`. -/
def signed (word : Nat) : Int := if word < 2 ^ 31 then word else (word : Int) - 2 ^ 32

/-- A write in user mode is let through: the entries of both levels are present, writable and open to the user. -/
def userWritable (m : Machine) (va : Nat) : Bool :=
  let pde := m.phys m.dir (va / 4194304)
  let pte := m.phys (frameOf pde) (va / 4096 % 1024)
  pde % 8 == 7 && pte % 8 == 7

/-- The three words of a `block_t` can be written. -/
def headerWritable (m : Machine) (ptr : Nat) : Bool :=
  userWritable m ptr && userWritable m (ptr + 4) && userWritable m (ptr + 8)

structure Process where
  mem : Mem
  heapList : Nat
  /-- The break and the page tables. -/
  kernel : Sbrk.State

/-- The heap as the program sees it. -/
def Process.heap (p : Process) : Malloc.State :=
  { mem := p.mem
    heapList := p.heapList
    brk := (Sbrk.start p.kernel).programBreak }

/-- What `malloc` asks the kernel for. -/
def increment (size : Nat) : Int := signed ((size + headerSize) % addresses)

/-- The end of `malloc`. No result means that the program dies. -/
def Process.extend (p : Process) (prev size : Nat) : Option (Nat × Process) := do
  let (ptr, kernel) ← Sbrk.sbrk p.kernel (increment size)
  if ptr = Sbrk.failed then some (0, { p with kernel := kernel })
  else if headerWritable kernel.machine ptr then
    let mem := store32 p.mem ptr size
    let mem := store32 mem (ptr + 8) 0
    let mem := store32 mem (ptr + 4) 0
    if prev ≠ 0 then
      some (ptr + headerSize,
        { p with
          mem := store32 mem (prev + 4) ptr
          kernel := kernel })
    else
      some (ptr + headerSize,
        { mem := mem
          heapList := ptr
          kernel := kernel })
  else none

def Process.malloc (p : Process) (size : Nat) : Option (Nat × Process) :=
  if size = 0 then some (0, p)
  else do
    let size := alignUp size
    let (prev, curr) ← search p.mem size addresses 0 p.heapList
    if curr ≠ 0 then
      let mem := store32 p.mem (curr + 8) 0
      some (curr + headerSize, { p with mem := splitBlock mem curr size })
    else p.extend prev size

def Process.free (p : Process) (ptr : Nat) : Option Process := do
  let heap ← Malloc.free p.heap ptr
  some
    { p with
      mem := heap.mem
      heapList := heap.heapList }

end JexOs.UserHeap
