import JexOs.Lib.Bytes

/-!
# The heap of a user program

`malloc` and `free` of `src/user/lib/stdlib.c`. The block headers are words of the program's memory, so the
model keeps the memory itself. Whether the kernel grants more memory is given with every call: a break
that it grants goes on where the last one ended and stays in the address space, so that no pointer sum
wraps. The walks follow links out of memory; more steps than there are addresses mean a cycle, and the
walk has no result.
-/

namespace JexOs.Malloc

open ByteMem

/-- `BLOCK_HEADER_SIZE`: the three words of a `block_t`. -/
def headerSize : Nat := 12

/-- The size of the address space. -/
def addresses : Nat := 2 ^ 32

structure State where
  mem : Mem
  heapList : Nat
  /-- The program break. -/
  brk : Nat

/-! The fields of the `block_t` at address `block`. -/

def sizeOf (mem : Mem) (block : Nat) : Nat := load32 mem block
def nextOf (mem : Mem) (block : Nat) : Nat := load32 mem (block + 4)
def freeOf (mem : Mem) (block : Nat) : Nat := load32 mem (block + 8)

/-- `sys_sbrk`. -/
def sysSbrk (s : State) (increment : Nat) (granted : Bool) : Nat × State :=
  if granted && s.brk + increment < addresses then
    (s.brk, { s with brk := s.brk + increment })
  else (addresses - 1, s)

/-- `(size + 7) & ~7` -/
def alignUp (size : Nat) : Nat := (size + 7) % addresses / 8 * 8

/-- The search loop of `malloc`: `prev` and `curr` when it stops. -/
def search (mem : Mem) (size : Nat) : (fuel prev curr : Nat) → Option (Nat × Nat)
  | 0, _, _ => none
  | fuel + 1, prev, curr =>
    if curr = 0 then some (prev, 0)
    else if freeOf mem curr ≠ 0 ∧ sizeOf mem curr ≥ size then some (prev, curr)
    else search mem size fuel curr (nextOf mem curr)

/-- Split the block if it is much larger than requested. -/
def splitBlock (mem : Mem) (curr size : Nat) : Mem :=
  if sizeOf mem curr ≥ (size + headerSize + 8) % addresses then
    let newBlock := curr + headerSize + size
    let mem := store32 mem newBlock (sizeOf mem curr - size - headerSize)
    let mem := store32 mem (newBlock + 8) 1
    let mem := store32 mem (newBlock + 4) (nextOf mem curr)
    let mem := store32 mem curr size
    store32 mem (curr + 4) newBlock
  else mem

/-- The end of `malloc`: extend the heap, and link the new block behind `prev`. -/
def extend (s : State) (prev size : Nat) (granted : Bool) : Nat × State :=
  let (ptr, s) := sysSbrk s ((size + headerSize) % addresses) granted
  if ptr = addresses - 1 then (0, s)
  else
    let mem := store32 s.mem ptr size
    let mem := store32 mem (ptr + 8) 0
    let mem := store32 mem (ptr + 4) 0
    if prev ≠ 0 then (ptr + headerSize, { s with mem := store32 mem (prev + 4) ptr })
    else
      (ptr + headerSize,
        { s with
          mem := mem
          heapList := ptr })

def malloc (s : State) (size : Nat) (granted : Bool) : Option (Nat × State) :=
  if size = 0 then some (0, s)
  else do
    let size := alignUp size
    let (prev, curr) ← search s.mem size addresses 0 s.heapList
    if curr ≠ 0 then
      let mem := store32 s.mem (curr + 8) 0
      some (curr + headerSize, { s with mem := splitBlock mem curr size })
    else some (extend s prev size granted)

/-- What both ways of coalescing do: `x` takes over the space of `y`, and its link. -/
def absorb (mem : Mem) (x y : Nat) : Mem :=
  let mem := store32 mem x ((sizeOf mem x + (sizeOf mem y + headerSize)) % addresses)
  store32 mem (x + 4) (nextOf mem y)

/-- Coalesce with the next block if it is free. -/
def coalesceNext (mem : Mem) (block : Nat) : Mem :=
  let next := nextOf mem block
  if next ≠ 0 ∧ freeOf mem next ≠ 0 then absorb mem block next else mem

/-- `while (curr && curr->next != block) curr = curr->next;` -/
def findPrev (mem : Mem) (block : Nat) : (fuel curr : Nat) → Option Nat
  | 0, _ => none
  | fuel + 1, curr =>
    if curr ≠ 0 ∧ nextOf mem curr ≠ block then findPrev mem block fuel (nextOf mem curr)
    else some curr

/-- Coalesce with the previous block if there is one and it is free. -/
def coalescePrev (mem : Mem) (curr block : Nat) : Mem :=
  if curr ≠ 0 ∧ freeOf mem curr ≠ 0 then absorb mem curr block else mem

def free (s : State) (ptr : Nat) : Option State :=
  if ptr = 0 then some s
  else do
    let block := ptr - headerSize
    let mem := store32 s.mem (block + 8) 1
    let mem := coalesceNext mem block
    let curr ← findPrev mem block addresses s.heapList
    some { s with mem := coalescePrev mem curr block }

/-! ### A program that uses the heap -/

/-- What `malloc` returned and how much was asked for. -/
structure Live where
  ptr : Nat
  size : Nat
deriving DecidableEq, Repr

/-- The bytes that the block behind a pointer can hold. -/
def Live.Contains (mem : Mem) (x : Live) (a : Nat) : Prop :=
  x.ptr ≤ a ∧ a < x.ptr + sizeOf mem (x.ptr - headerSize)

instance (mem : Mem) (x : Live) (a : Nat) : Decidable (x.Contains mem a) :=
  inferInstanceAs (Decidable (_ ∧ _))

structure Program where
  heap : State
  live : List Live

/-- Nothing has been asked for. -/
def Program.start (mem : Mem) (base : Nat) : Program :=
  { heap :=
      { mem := mem
        heapList := 0
        brk := base }
    live := [] }

inductive Event where
  | malloc (size : Nat) (granted : Bool)
  | free (ptr : Nat)
  | write (a : Nat) (v : UInt8)

/-- A program frees live pointers only, and writes within live blocks. -/
def Program.allowed (p : Program) : Event → Bool
  | .malloc size _ => 1 ≤ size && size < 2 ^ 31 - 32
  | .free ptr => p.live.any fun x => x.ptr == ptr
  | .write a _ => p.live.any fun x => decide (x.Contains p.heap.mem a)

def Program.step (p : Program) : Event → Option Program
  | .malloc size granted => do
      let (ptr, heap) ← Malloc.malloc p.heap size granted
      some
        { heap := heap
          live :=
            if ptr = 0 then p.live
            else
              { ptr := ptr
                size := size } :: p.live }
  | .free ptr => do
      let heap ← Malloc.free p.heap ptr
      some
        { heap := heap
          live := p.live.filter fun x => x.ptr != ptr }
  | .write a v =>
    some { p with heap := { p.heap with mem := Function.update p.heap.mem a v } }

def Program.run : Program → List Event → Option Program
  | p, [] => some p
  | p, event :: events => do
      let p ← p.step event
      p.run events

/-- Every step of a run is allowed. -/
def Program.legal : Program → List Event → Bool
  | _, [] => true
  | p, event :: events =>
    p.allowed event &&
      match p.step event with
      | none => true
      | some p => p.legal events

end JexOs.Malloc
