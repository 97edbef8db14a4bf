import JexOs.Pmm

/-!
# The kernel heap

`src/mm/kheap.c`: a slab allocator over the physical memory manager. Every slab is one frame: a
28-byte header, then the objects, whose free ones hold the index of the next free object. Blocks
above 2048 bytes get their own frames behind an 8-byte header. Headers and links are words of
memory, so the model keeps the memory itself; its addresses stay below 128 MB and no pointer sum
wraps. The list walks follow pointers out of memory; a list of slabs cannot be longer than the
number of frames, so more than `totalBlocks` steps mean a cycle and the walk has no result.
-/

namespace JexOs

open ByteMem

namespace Kheap

def slabMagic : Nat := 0x534C4142
def largeMagic : Nat := 0x4C524700
def slabPageSize : Nat := 4096
def slabMaxSize : Nat := 2048
def slabCacheCount : Nat := 8

/-- `sizeof(slab_t)`: seven packed words. -/
def slabHeader : Nat := 28

/-- `sizeof(large_hdr_t)`. -/
def largeHeader : Nat := 8

/-- The index that ends a free list. -/
def noIndex : Nat := 0xFFFFFFFF

def slabSizes : List Nat := [16, 32, 64, 128, 256, 512, 1024, 2048]

/-- `caches[i].obj_size`. -/
def objSize (i : Nat) : Nat := slabSizes.getD i 0

/-- `caches[i].objs_per_slab`. -/
def objsPerSlab (i : Nat) : Nat := (slabPageSize - slabHeader) / objSize i

structure State where
  mem : Mem
  pmm : Pmm.State
  /-- `caches[i].slab_list`. -/
  slabList : Nat → Nat
  totalCommitted : Nat

/-! The fields of the `slab_t` at address `slab`. -/

def magicOf (mem : Mem) (slab : Nat) : Nat := load32 mem slab
def nextOf (mem : Mem) (slab : Nat) : Nat := load32 mem (slab + 4)
def objSizeOf (mem : Mem) (slab : Nat) : Nat := load32 mem (slab + 8)
def objCountOf (mem : Mem) (slab : Nat) : Nat := load32 mem (slab + 12)
def freeCountOf (mem : Mem) (slab : Nat) : Nat := load32 mem (slab + 16)
def freeHeadOf (mem : Mem) (slab : Nat) : Nat := load32 mem (slab + 20)

/-- `data + idx * obj_size`, with `data` just past the header. -/
def objAddr (slab size idx : Nat) : Nat := slab + slabHeader + idx * size

/-- The loop of `slab_create` that links the objects of a new slab. -/
def buildFreeList (mem : Mem) (slab size count : Nat) : Mem :=
  (List.range count).foldl
    (fun m i => store32 m (objAddr slab size i) (if i = count - 1 then noIndex else i + 1)) mem

/-- The header stores of `slab_create`. -/
def writeSlabHeader (mem : Mem) (slab i : Nat) : Mem :=
  let mem := store32 mem slab slabMagic
  let mem := store32 mem (slab + 4) 0
  let mem := store32 mem (slab + 8) (objSize i)
  let mem := store32 mem (slab + 12) (objsPerSlab i)
  let mem := store32 mem (slab + 16) (objsPerSlab i)
  store32 mem (slab + 20) 0

def slabCreate (s : State) (i : Nat) : Nat × State :=
  let (slab, pmm) := Pmm.pmmAllocBlocks s.pmm 1
  if slab = 0 then (0, { s with pmm := pmm })
  else
    let mem := buildFreeList (writeSlabHeader s.mem slab i) slab (objSize i) (objsPerSlab i)
    (slab, { s with mem := mem, pmm := pmm, totalCommitted := s.totalCommitted + slabPageSize })

/-- `while (slab && slab->free_count == 0) slab = slab->next;` -/
def findSlab (mem : Mem) : (fuel slab : Nat) → Option Nat
  | 0, _ => none
  | fuel + 1, slab =>
    if slab ≠ 0 ∧ freeCountOf mem slab = 0 then findSlab mem fuel (nextOf mem slab)
    else some slab

/-- The end of `slab_alloc`: pop the first free object. -/
def slabPop (s : State) (slab : Nat) : Nat × State :=
  let obj := objAddr slab (objSizeOf s.mem slab) (freeHeadOf s.mem slab)
  let mem := store32 s.mem (slab + 20) (load32 s.mem obj)
  let mem := store32 mem (slab + 16) (freeCountOf mem slab - 1)
  (obj, { s with mem := mem })

def slabAlloc (s : State) (i : Nat) : Option (Nat × State) :=
  match findSlab s.mem (Pmm.totalBlocks + 1) (s.slabList i) with
  | none => none
  | some 0 =>
    let (slab, s) := slabCreate s i
    if slab = 0 then some (0, s)
    else
      let mem := store32 s.mem (slab + 4) (s.slabList i)
      some (slabPop { s with mem := mem, slabList := Function.update s.slabList i slab } slab)
  | some slab => some (slabPop s slab)

def slabFree (s : State) (slab ptr : Nat) : State :=
  let idx := (ptr - (slab + slabHeader)) / objSizeOf s.mem slab
  let obj := objAddr slab (objSizeOf s.mem slab) idx
  let mem := store32 s.mem obj (freeHeadOf s.mem slab)
  let mem := store32 mem (slab + 20) idx
  let mem := store32 mem (slab + 16) (freeCountOf mem slab + 1)
  { s with mem := mem }

/-- `while (idx < SLAB_CACHE_COUNT - 1 && slab_sizes[idx] < size) idx++;` -/
def sizeClass (size : Nat) : Nat :=
  ((List.range (slabCacheCount - 1)).find? fun i => !decide (objSize i < size)).getD
    (slabCacheCount - 1)

/-- The frames a large block takes: `(total + SLAB_PAGE_SIZE - 1) / SLAB_PAGE_SIZE`. -/
def largePages (size : Nat) : Nat :=
  ((size + largeHeader) % 2 ^ 32 + slabPageSize - 1) % 2 ^ 32 / slabPageSize

def kmalloc (s : State) (size : Nat) : Option (Nat × State) :=
  if size = 0 then some (0, s)
  else if size > slabMaxSize then
    let pages := largePages size
    let (hdr, pmm) := Pmm.pmmAllocBlocks s.pmm pages
    if hdr = 0 then some (0, { s with pmm := pmm })
    else
      let mem := store32 (store32 s.mem hdr largeMagic) (hdr + 4) pages
      some (hdr + largeHeader,
        { s with
          mem := mem
          pmm := pmm
          totalCommitted := s.totalCommitted + pages * slabPageSize })
  else
    slabAlloc s (sizeClass size)

/-- `(slab_t*)((uint32_t)ptr & ~0xFFF)` -/
def pageOf (ptr : Nat) : Nat := ptr - ptr % slabPageSize

def kfree (s : State) (ptr : Nat) : State :=
  if ptr = 0 then s
  else
    let slab := pageOf ptr
    if magicOf s.mem slab = slabMagic then slabFree s slab ptr
    else if magicOf s.mem slab = largeMagic then
      let pages := load32 s.mem (slab + 4)
      { s with
        pmm := Pmm.pmmFreeBlocks s.pmm slab pages
        totalCommitted := s.totalCommitted - pages * slabPageSize }
    else s

/-- The list walk of `kheap_reclaim` over one cache. -/
def reclaimCache (i : Nat) : (fuel prev slab : Nat) → State → Option State
  | 0, _, _, _ => none
  | fuel + 1, prev, slab, s =>
    if slab = 0 then some s
    else
      let next := nextOf s.mem slab
      if freeCountOf s.mem slab = objCountOf s.mem slab ∧ objCountOf s.mem slab > 0 then
        let s := if prev ≠ 0 then { s with mem := store32 s.mem (prev + 4) next }
          else { s with slabList := Function.update s.slabList i next }
        reclaimCache i fuel prev next
          { s with
            totalCommitted := s.totalCommitted - slabPageSize
            pmm := Pmm.pmmFreeBlocks s.pmm slab 1 }
      else
        reclaimCache i fuel slab next s

def kheapReclaim (s : State) : Option State :=
  (List.range slabCacheCount).foldlM
    (fun s i => reclaimCache i (Pmm.totalBlocks + 1) 0 (s.slabList i) s) s

/-- The heap at boot: `init_caches`, before the first `kmalloc`. -/
def initKheap (mem : Mem) (pmm : Pmm.State) : State :=
  { mem := mem, pmm := pmm, slabList := fun _ => 0, totalCommitted := 0 }

end Kheap

end JexOs
