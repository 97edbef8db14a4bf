import JexOs.Pmm

/-!
# Paging

`src/mm/paging.c`. The machine is its physical memory, a function from frames and word indices, with
the current page directory. Every access the kernel makes goes through the translation the directory
gives, because the code relies on two windows into it: the identity map, where an address below
512 MB is meant to be the physical address, and the recursive entry 1022, through which all page
tables of the current directory appear. A failed translation is a page fault and has no result. The
translation always reads the tables in memory: stale entries of the processor's cache are left out.

Words are 32-bit numbers. In an entry the low twelve bits are flags (present 1, writable 2, user 4)
and the rest is the frame, so the source's shifts and masks are quotients and remainders by 4096,
and its `|` of disjoint bits is a sum.
-/

namespace JexOs.Paging

structure Machine where
  /-- Word `w` of physical frame `f`. -/
  phys : Nat → Nat → Nat
  pmm : Pmm.State
  /-- The frame of the current page directory. -/
  dir : Nat
  /-- `CR0.PG`. -/
  active : Bool

def present (entry : Nat) : Prop := entry % 2 = 1
def userBit (entry : Nat) : Prop := entry / 4 % 2 = 1
def frameOf (entry : Nat) : Nat := entry / 4096

instance (entry : Nat) : Decidable (present entry) := inferInstanceAs (Decidable (_ = _))
instance (entry : Nat) : Decidable (userBit entry) := inferInstanceAs (Decidable (_ = _))

/-- The entry for physical address `phys` with the three flag bits the callers use. -/
def entryFor (phys flags : Nat) : Nat := phys / 4096 * 4096 + flags % 8

def recursivePdeBase : Nat := 0xFF800000
def recursivePdeIdx : Nat := 1022
def scratchPteBase : Nat := 0xFF400000
def scratchPdeIdx : Nat := 1021
def kstackPdeIdx : Nat := 1023

/-- `PTE_PTR(i)`. -/
def ptePtr (i : Nat) : Nat := recursivePdeBase + i * 4096

/-- `PDE_PTR(i)`. -/
def pdePtr (i : Nat) : Nat := 0xFFBFE000 + i * 4

namespace Machine

/-- The frame and word index behind a virtual address. -/
def translate (m : Machine) (va : Nat) : Option (Nat × Nat) :=
  if m.active then
    let pde := m.phys m.dir (va / 4194304 % 1024)
    if present pde then
      let pte := m.phys (frameOf pde) (va / 4096 % 1024)
      if present pte then some (frameOf pte, va / 4 % 1024) else none
    else
      none
  else
    some (va / 4096, va / 4 % 1024)

def set (m : Machine) (frame w v : Nat) : Machine :=
  { m with phys := Function.update m.phys frame (Function.update (m.phys frame) w v) }

def load (m : Machine) (va : Nat) : Option Nat :=
  (m.translate va).map fun (frame, w) => m.phys frame w

def store (m : Machine) (va v : Nat) : Option Machine :=
  (m.translate va).map fun (frame, w) => m.set frame w v

/-- `memset(p, 0, 4096)`, word by word. -/
def zeroPage (m : Machine) (p : Nat) : Option Machine :=
  (List.range 1024).foldlM (fun m w => m.store (p + 4 * w) 0) m

/-- `memcpy(d, s, 4096)`, word by word. -/
def copyPage (m : Machine) (d s : Nat) : Option Machine :=
  (List.range 1024).foldlM (fun m w => do m.store (d + 4 * w) (← m.load (s + 4 * w))) m

end Machine

/-- `pmm_alloc_block` as the paging code calls it. -/
def allocBlock (m : Machine) : Nat × Machine :=
  let (p, pmm) := Pmm.pmmAllocBlock m.pmm
  (p, { m with pmm := pmm })

/-- The address the kernel uses for the current page directory. -/
def currentPageDir (m : Machine) : Nat := m.dir * 4096

def scratchMapFrame (m : Machine) (phys : Nat) : Option Machine :=
  m.store (pdePtr scratchPdeIdx) (entryFor phys 3)

def identityUnmapFrame (m : Machine) (phys : Nat) : Option Machine :=
  if !m.active then some m
  else if phys / 4194304 > 127 then some m
  else do
    let a := ptePtr (phys / 4194304) + phys / 4096 % 1024 * 4
    let entry ← m.load a
    m.store a (entry / 2 * 2)

/-- The pointer `get_table_in` returns for a table that is in place. -/
def tablePointer (m : Machine) (dir i tableAddr : Nat) : Option (Nat × Machine) :=
  if dir = currentPageDir m then
    some (if m.active then ptePtr i else tableAddr, m)
  else
    (scratchMapFrame m tableAddr).map fun m => (scratchPteBase, m)

/-- `get_table_in`: the address of page table `i` of `dir`, made if it is missing; null when no
frame is left for it. -/
def getTableIn (m : Machine) (dir i flags : Nat) : Option (Nat × Machine) := do
  let entry ← m.load (dir + 4 * i)
  if present entry then
    let m ← if userBit flags ∧ ¬ userBit entry then m.store (dir + 4 * i) (entry + 4) else some m
    tablePointer m dir i (frameOf entry * 4096)
  else
    let (pt, m) := allocBlock m
    if pt = 0 then some (0, m)
    else
      let m ← m.zeroPage pt
      let m ← m.store pt (entryFor pt 3)
      let m ← identityUnmapFrame m pt
      let m ← m.store (dir + 4 * i) (entryFor pt flags)
      tablePointer m dir i pt

def enomem : Int := -12

def mapPageIn (m : Machine) (dir physaddr virtualaddr flags : Nat) : Option (Int × Machine) := do
  let (table, m) ← getTableIn m dir (virtualaddr / 4194304) flags
  if table = 0 then some (enomem, m)
  else
    let m ← m.store (table + virtualaddr / 4096 % 1024 * 4) (entryFor physaddr flags)
    some (0, m)

def mapPage (m : Machine) (physaddr virtualaddr flags : Nat) : Option (Int × Machine) :=
  mapPageIn m (currentPageDir m) physaddr virtualaddr flags

/-- `paging_unmap_page`, which takes it that the page's table belongs to the current directory. -/
def pagingUnmapPage (m : Machine) (virtualaddr : Nat) : Option Machine := do
  let entry ← m.load (currentPageDir m + 4 * (virtualaddr / 4194304))
  if ¬ present entry then some m
  else
    let a := ptePtr (virtualaddr / 4194304) + virtualaddr / 4096 % 1024 * 4
    let entry ← m.load a
    m.store a (entry / 2 * 2)

/-- The identity loop of `init_paging`; the results of `map_page` are ignored. -/
def identityMap : (n i : Nat) → Machine → Option Machine
  | 0, _, m => some m
  | n + 1, i, m => do
      let (_, m) ← mapPage m (i * 4096) (i * 4096) 3
      identityMap n (i + 1) m

/-- The end of `init_paging`: the page table for the kernel stacks. With no frame left for it the
source halts, and there is no result. -/
def initKstackTable (m : Machine) : Option Machine := do
  let (pt, m) := allocBlock m
  if pt = 0 then none
  else
    let m ← m.zeroPage pt
    let m ← m.store pt (entryFor pt 3)
    let m ← m.store (currentPageDir m + 4 * kstackPdeIdx) (entryFor pt 3)
    identityUnmapFrame m pt

/-- `init_paging`, from a machine whose `dir` is the frame of `kernel_directory`. -/
def initPaging (m : Machine) : Option Machine := do
  let m ← m.zeroPage (currentPageDir m)
  let m ← identityMap 131072 0 m
  let m ← m.store (currentPageDir m + 4 * recursivePdeIdx) (entryFor (currentPageDir m) 3)
  initKstackTable { m with active := true }

/-! ### `clone_page_directory` -/

/-- The loop over the entries of source table `i`; `n` entries are left, from `j` on. The flag tells
whether every frame could be had. -/
def cloneTable (pt i : Nat) : (n j : Nat) → Machine → Option (Bool × Machine)
  | 0, _, m => some (true, m)
  | n + 1, j, m => do
      let entry ← m.load (ptePtr i + 4 * j)
      if ¬ present entry then cloneTable pt i n (j + 1) m
      else if userBit entry then
        let (page, m) := allocBlock m
        if page = 0 then some (false, m)
        else
          let m ← m.copyPage page (frameOf entry * 4096)
          let m ← m.store (pt + 4 * j) (entry % 4096 + page / 4096 * 4096)
          cloneTable pt i n (j + 1) m
      else
        let m ← m.store (pt + 4 * j) entry
        cloneTable pt i n (j + 1) m

/-- The directory entry for a cloned table: the source's flags, and the user bit. -/
def clonedPde (pt entry : Nat) : Nat :=
  pt / 4096 * 4096 + 1 + entry / 2 % 2 * 2 + 4 + entry / 8 % 2 * 8 + entry / 16 % 2 * 16
    + entry / 128 % 2 * 128

/-- One deep-copied table: allocate it, open its identity page, copy, plant the self-map in entry 0
and enter it in the new directory. -/
def cloneEntry (src dst i pt : Nat) (m : Machine) : Option (Bool × Machine) := do
  let m ← m.zeroPage pt
  let m ← m.store (ptePtr (pt / 4194304) + pt / 4096 % 1024 * 4) (entryFor pt 3)
  let m ← m.store pt (entryFor pt 3)
  let (done, m) ← cloneTable pt i 1024 0 m
  if !done then some (false, m)
  else
    let m ← m.store pt (entryFor pt 3)
    let entry ← m.load (src + 4 * i)
    let m ← m.store (dst + 4 * i) (clonedPde pt entry)
    some (true, m)

/-- The loop over the directory; `tables` are the tables allocated so far. -/
def cloneEntries (src dst : Nat) : (n i : Nat) → List Nat → Machine → Option (Bool × List Nat × Machine)
  | 0, _, tables, m => some (true, tables, m)
  | n + 1, i, tables, m => do
      let entry ← m.load (src + 4 * i)
      if ¬ present entry then cloneEntries src dst n (i + 1) tables m
      else if userBit entry ∨ i = 32 then
        let (pt, m) := allocBlock m
        if pt = 0 then some (false, tables, m)
        else
          let (done, m) ← cloneEntry src dst i pt m
          if done then cloneEntries src dst n (i + 1) (tables ++ [pt]) m
          else some (false, tables ++ [pt], m)
      else
        let m ← m.store (dst + 4 * i) entry
        cloneEntries src dst n (i + 1) tables m

/-- `clone_page_directory`: the new directory's address, or null. -/
def clonePageDirectory (m : Machine) (src : Nat) : Option (Nat × Machine) := do
  let (dst, m) := allocBlock m
  if dst = 0 then some (0, m)
  else
    let m ← m.zeroPage dst
    let (done, tables, m) ← cloneEntries src dst 1024 0 [] m
    if done then
      let m ← m.store (dst + 4 * recursivePdeIdx) (entryFor dst 3)
      some (dst, m)
    else
      -- the pages of unfinished tables are leaked
      let pmm := tables.foldl Pmm.pmmFreeBlock m.pmm
      some (0, { m with pmm := Pmm.pmmFreeBlock pmm dst })

end JexOs.Paging
