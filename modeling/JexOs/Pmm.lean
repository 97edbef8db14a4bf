import JexOs.Lib.Bitmap

/-!
# The physical memory manager

`src/mm/pmm.c`: one bit for each 4 KB frame of the 128 MB of RAM, and a counter of the set bits.
Addresses and counts are 32-bit values; `used_blocks + count` is the one sum that can wrap, and
`count` comes from the caller, so it is taken modulo `2 ^ 32`. A null pointer is the address `0`.
-/

namespace JexOs

open ByteMem

namespace Pmm

def blockSize : Nat := 4096

/-- `TOTAL_BLOCKS`, also the value of `max_blocks`. -/
def totalBlocks : Nat := 128 * 1024 * 1024 / blockSize

theorem totalBlocks_eq : totalBlocks = 32768 := by decide

/-- The frames of the first 2 MB, which `pmm_init` always reserves. -/
def kernelPages : Nat := 2 * 1024 * 1024 / blockSize

structure State where
  /-- `pmm_bitmap`. -/
  bitmap : Mem
  /-- `used_blocks`. -/
  usedBlocks : Nat

def State.markUsed (s : State) (frame : Nat) : State :=
  { bitmap := Bitmap.set s.bitmap frame, usedBlocks := s.usedBlocks + 1 }

def State.markFree (s : State) (frame : Nat) : State :=
  { bitmap := Bitmap.clear s.bitmap frame, usedBlocks := s.usedBlocks - 1 }

/-- `if (bitmap_test(f)) { bitmap_unset(f); used_blocks--; }` -/
def State.release (s : State) (frame : Nat) : State :=
  if Bitmap.test s.bitmap frame then s.markFree frame else s

/-- `bitmap_first_free`: whole 32-bit words first, then the bits of a word that is not full. -/
def bitmapFirstFree (bitmap : Mem) : Option Nat :=
  (List.range (totalBlocks / 32)).findSome? fun i =>
    if load32 bitmap (i * 4) ≠ 0xFFFFFFFF then
      (List.range 32).findSome? fun j =>
        if Bitmap.test bitmap (i * 32 + j) then none else some (i * 32 + j)
    else
      none

/-- How the look-ahead loop of `bitmap_first_free_contiguous` ends. -/
inductive LookAhead where
  | found
  | blocked (j : Nat)
  | exhausted
  deriving DecidableEq, Repr

/-- The inner loop: `n` frames are left before `TOTAL_BLOCKS`. -/
def lookAhead (bitmap : Mem) (count : Nat) : (n j freeCount : Nat) → LookAhead
  | 0, _, _ => .exhausted
  | n + 1, j, freeCount =>
    if Bitmap.test bitmap j then .blocked j
    else if freeCount + 1 = count then .found
    else lookAhead bitmap count n (j + 1) (freeCount + 1)

/-- The outer loop. Every pass moves `i` forward, so `TOTAL_BLOCKS` passes are enough. -/
def firstFreeFrom (bitmap : Mem) (count : Nat) : (fuel i : Nat) → Option Nat
  | 0, _ => none
  | fuel + 1, i =>
    if i < totalBlocks then
      if Bitmap.test bitmap i then firstFreeFrom bitmap count fuel (i + 1)
      else
        match lookAhead bitmap count (totalBlocks - i) i 0 with
        | .found => some i
        | .blocked j => firstFreeFrom bitmap count fuel (j + 1)
        | .exhausted => firstFreeFrom bitmap count fuel (i + 1)
    else
      none

def bitmapFirstFreeContiguous (bitmap : Mem) (count : Nat) : Option Nat :=
  if count = 0 then none
  else if count = 1 then bitmapFirstFree bitmap
  else firstFreeFrom bitmap count totalBlocks 0

def pmmAllocBlock (s : State) : Nat × State :=
  if s.usedBlocks ≥ totalBlocks then (0, s)
  else
    match bitmapFirstFree s.bitmap with
    | none => (0, s)
    | some frame => (frame * blockSize, s.markUsed frame)

def pmmAllocBlocks (s : State) (count : Nat) : Nat × State :=
  if (s.usedBlocks + count) % 2 ^ 32 > totalBlocks then (0, s)
  else
    match bitmapFirstFreeContiguous s.bitmap count with
    | none => (0, s)
    | some frame =>
      (frame * blockSize,
        { bitmap := (List.range count).foldl (fun b i => Bitmap.set b (frame + i)) s.bitmap
          usedBlocks := s.usedBlocks + count })

def pmmFreeBlock (s : State) (p : Nat) : State :=
  if p / blockSize ≥ totalBlocks then s else s.release (p / blockSize)

/-- The loop of `pmm_free_blocks`, with `n` blocks left to free. -/
def freeBlocksFrom : (n frame : Nat) → State → State
  | 0, _, s => s
  | n + 1, frame, s =>
    if frame ≥ totalBlocks then s else freeBlocksFrom n (frame + 1) (s.release frame)

def pmmFreeBlocks (s : State) (p count : Nat) : State :=
  freeBlocksFrom count (p / blockSize) s

/-- `multiboot_memory_map_t`. -/
structure MmapEntry where
  size : Nat
  addr : Nat
  len : Nat
  type : Nat

/-- The fields of `multiboot_info_t` that `pmm_init` reads, with the memory it follows
`mmap_addr` into. -/
structure MultibootInfo where
  flags : Nat
  mmapAddr : Nat
  mmapLength : Nat
  entryAt : Nat → MmapEntry

/-- `for (uint64_t i = 0; i < len; i += BLOCK_SIZE)`. No result means the loop is still running
after `fuel` passes. -/
def freeRegion (addr len : Nat) : (fuel i : Nat) → State → Option State
  | 0, _, _ => none
  | fuel + 1, i, s =>
    if i < len then
      -- `frame_addr` is a 64-bit sum and `frame_idx` its quotient cut to 32 bits
      let frameIdx := (addr + i) % 2 ^ 64 / blockSize % 2 ^ 32
      let s := if frameIdx < totalBlocks then s.release frameIdx else s
      freeRegion addr len fuel ((i + blockSize) % 2 ^ 64) s
    else
      some s

/-- The walk over the memory map, from `p` up to `mmap_addr + mmap_length`. -/
def mmapWalk (info : MultibootInfo) : (fuel p : Nat) → State → Option State
  | 0, _, _ => none
  | fuel + 1, p, s =>
    if p < (info.mmapAddr + info.mmapLength) % 2 ^ 32 then
      let entry := info.entryAt p
      let next := (p + entry.size + 4) % 2 ^ 32
      if entry.type = 1 then
        match freeRegion entry.addr entry.len fuel 0 s with
        | none => none
        | some s => mmapWalk info fuel next s
      else
        mmapWalk info fuel next s
    else
      some s

/-- The fallback of `pmm_init`: free everything above 2 MB. -/
def freeAboveKernel (s : State) : State :=
  (List.range' kernelPages (totalBlocks - kernelPages)).foldl State.release s

/-- The kernel reservation that ends `pmm_init`. -/
def reserveKernel (s : State) : State :=
  (List.range kernelPages).foldl
    (fun s i => if Bitmap.test s.bitmap i then s else s.markUsed i) s

/-- `pmm_init`. The memory map is the bootloader's, so neither loop over it need end: no result
means that `fuel` passes were not enough. -/
def pmmInit (fuel : Nat) (info : MultibootInfo) : Option State :=
  let full : State := { bitmap := fun _ => 0xFF, usedBlocks := totalBlocks }
  let mapped := if info.flags.testBit 6 then mmapWalk info fuel info.mmapAddr full else some full
  mapped.map fun s =>
    reserveKernel (if s.usedBlocks = totalBlocks then freeAboveKernel s else s)

end Pmm

end JexOs
