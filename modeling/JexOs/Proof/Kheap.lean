import JexOs.Kheap
import JexOs.Lib.Chain
import JexOs.Proof.Pmm
import Mathlib.Data.List.Pairwise

/-!
# The slab heap: layout and invariant

`Inv` says what the slab headers, the links inside free objects and the headers of large blocks hold, and which
frames they live in.
-/

namespace JexOs.Kheap

open ByteMem Linked List

variable {i size idx slab : Nat} {mem : Mem} {free : List Nat}

section

variable (hi : i < slabCacheCount)

include hi

theorem objSize_pos : 16 ≤ objSize i := by
  revert i
  decide

theorem objSize_le : objSize i ≤ 2048 := by
  revert i
  decide

theorem objsPerSlab_pos : 0 < objsPerSlab i := by
  revert i
  decide

theorem objsPerSlab_lt : objsPerSlab i < 256 := by
  revert i
  decide

end

theorem sizeClass_lt (size : Nat) : sizeClass size < slabCacheCount := by
  unfold sizeClass
  cases hfind : (List.range (slabCacheCount - 1)).find? fun i => !decide (objSize i < size) with
  | none => decide
  | some i =>
    have hmem := mem_range.mp (mem_of_find?_eq_some hfind)
    simp only [Option.getD_some, slabCacheCount] at *
    omega

theorem le_objSize_sizeClass (hsize : size ≤ slabMaxSize) : size ≤ objSize (sizeClass size) := by
  unfold sizeClass
  cases hfind : (List.range (slabCacheCount - 1)).find? fun i => !decide (objSize i < size) with
  | none => exact hsize
  | some i =>
    have hfits := find?_some hfind
    simpa using hfits

theorem objAddr_bounds (hidx : idx < objsPerSlab i)
    (slab : Nat) : slab + slabHeader ≤ objAddr slab (objSize i) idx ∧
      objAddr slab (objSize i) idx + objSize i ≤ slab + slabPageSize := by
  have hfit : objsPerSlab i * objSize i ≤ slabPageSize - slabHeader := Nat.div_mul_le_self _ _
  have hnext : (idx + 1) * objSize i ≤ objsPerSlab i * objSize i := Nat.mul_le_mul_right (objSize i) hidx
  rw [Nat.add_mul, Nat.one_mul] at hnext
  unfold objAddr
  simp only [slabPageSize, slabHeader] at *
  omega

theorem objAddr_apart {idx' : Nat} (slab size : Nat) (hne : idx ≠ idx') :
    objAddr slab size idx + size ≤ objAddr slab size idx' ∨
    objAddr slab size idx' + size ≤ objAddr slab size idx := by
  unfold objAddr
  rcases Nat.lt_or_gt_of_ne hne with hlt | hlt
  · left
    have hmul : (idx + 1) * size ≤ idx' * size := Nat.mul_le_mul_right size hlt
    rw [Nat.add_mul, Nat.one_mul] at hmul
    omega
  · right
    have hmul : (idx' + 1) * size ≤ idx * size := Nat.mul_le_mul_right size hlt
    rw [Nat.add_mul, Nat.one_mul] at hmul
    omega

def nextFree (mem : Mem) (slab size idx : Nat) : Nat := load32 mem (objAddr slab size idx)

structure SlabOk (mem : Mem) (i slab : Nat) (free : List Nat) : Prop where
  magic : magicOf mem slab = slabMagic
  size : objSizeOf mem slab = objSize i
  count : objCountOf mem slab = objsPerSlab i
  freeCount : freeCountOf mem slab = free.length
  chain : Chain (nextFree mem slab (objSize i)) noIndex (freeHeadOf mem slab) free
  nodup : free.Nodup
  bound : ∀ idx ∈ free, idx < objsPerSlab i

def SlabData (i slab : Nat) (free : List Nat) (a : Nat) : Prop :=
  (slab ≤ a ∧ a < slab + slabHeader) ∨
    ∃ idx ∈ free, objAddr slab (objSize i) idx ≤ a ∧ a < objAddr slab (objSize i) idx + 4

theorem SlabOk.congr {mem' : Mem}
    (hslab : SlabOk mem i slab free) (hmem : ∀ a, SlabData i slab free a → mem' a = mem a) :
    SlabOk mem' i slab free := by
  have hword : ∀ offset, offset + 4 ≤ slabHeader →
      load32 mem' (slab + offset) = load32 mem (slab + offset) := by
    intro offset hoffset
    exact load32_congr fun k hlow hhigh => hmem k (.inl ⟨by omega, by omega⟩)
  have hfree : ∀ idx ∈ free,
      nextFree mem' slab (objSize i) idx = nextFree mem slab (objSize i) idx := by
    intro idx hidx
    exact load32_congr fun k hlow hhigh => hmem k (.inr ⟨idx, hidx, hlow, hhigh⟩)
  have hhead : freeHeadOf mem' slab = freeHeadOf mem slab := hword 20 (by decide)
  exact
    { magic := (hword 0 (by decide)).trans hslab.magic
      size := (hword 8 (by decide)).trans hslab.size
      count := (hword 12 (by decide)).trans hslab.count
      freeCount := (hword 16 (by decide)).trans hslab.freeCount
      chain := by
        rw [hhead]
        exact hslab.chain.congr hfree
      nodup := hslab.nodup
      bound := hslab.bound }

theorem SlabOk.page (hslab : SlabOk mem i slab free)
    (hi : i < slabCacheCount) {a : Nat} (ha : SlabData i slab free a) :
    slab ≤ a ∧ a < slab + slabPageSize := by
  rcases ha with ⟨hlow, hhigh⟩ | ⟨idx, hidx, hlow, hhigh⟩
  · simp only [slabPageSize, slabHeader] at *
    omega
  · have hbounds := objAddr_bounds (hslab.bound idx hidx) slab
    have hsize := objSize_pos hi
    omega

theorem SlabOk.mem_free_of_full (hslab : SlabOk mem i slab free) (hfull : free.length = objsPerSlab i)
    (hidx : idx < objsPerSlab i) : idx ∈ free := by
  have hsub : free ⊆ List.range (objsPerSlab i) := fun j hj => mem_range.mpr (hslab.bound j hj)
  have hperm : free.Perm (List.range (objsPerSlab i)) := by
    refine Subperm.perm_of_length_le (subperm_of_subset hslab.nodup hsub) ?_
    rw [length_range, hfull]
  exact hperm.mem_iff.mpr (mem_range.mpr hidx)

/-- A block returned by `kmalloc(size)` and not yet freed. -/
structure Block where
  ptr : Nat
  size : Nat
  deriving DecidableEq

def Block.Contains (blk : Block) (a : Nat) : Prop := blk.ptr ≤ a ∧ a < blk.ptr + blk.size

def Block.Disjoint (x y : Block) : Prop := ∀ a, x.Contains a → ¬ y.Contains a

def Block.Large (blk : Block) : Prop := slabMaxSize < blk.size

instance (blk : Block) : Decidable blk.Large := inferInstanceAs (Decidable (_ < _))

def allSlabs (slabs : Nat → List Nat) : List Nat := (List.range slabCacheCount).flatMap slabs

def slabAlloc₁ (slab : Nat) : Pmm.Alloc := ⟨slab / Pmm.blockSize, 1⟩

def largeAlloc (blk : Block) : Pmm.Alloc := ⟨blk.ptr / Pmm.blockSize, largePages blk.size⟩

/-- The allocations the heap holds: its slabs and the frames of its large blocks. -/
def owned (slabs : Nat → List Nat) (live : List Block) : List Pmm.Alloc :=
  (allSlabs slabs).map slabAlloc₁ ++ (live.filter (·.Large)).map largeAlloc

structure LargeOk (mem : Mem) (blk : Block) : Prop where
  size : blk.size + 4103 < 2 ^ 32
  offset : blk.ptr % slabPageSize = largeHeader
  magic : load32 mem (blk.ptr - largeHeader) = largeMagic
  pages : load32 mem (blk.ptr - largeHeader + 4) = largePages blk.size

structure Layout (mem : Mem) (slabList : Nat → Nat) (slabs : Nat → List Nat)
    (free : Nat → List Nat) (live : List Block) : Prop where
  linked : ∀ i, i < slabCacheCount → Chain (nextOf mem) 0 (slabList i) (slabs i)
  slab : ∀ i, i < slabCacheCount → ∀ b ∈ slabs i, SlabOk mem i b (free b)
  large : ∀ blk ∈ live, blk.Large → LargeOk mem blk

def Placed (slabs : Nat → List Nat) (free : Nat → List Nat) (blk : Block) : Prop :=
  0 < blk.size ∧ ∃ b ∈ slabs (sizeClass blk.size), ∃ idx, idx < objsPerSlab (sizeClass blk.size) ∧
    idx ∉ free b ∧ blk.ptr = objAddr b (objSize (sizeClass blk.size)) idx

structure Inv (reserved : Nat → Bool) (s : State) (live : List Block) (env : List Pmm.Alloc)
    (slabs : Nat → List Nat) (free : Nat → List Nat) : Prop where
  pmm : Pmm.Inv reserved s.pmm (owned slabs live ++ env)
  committed : s.totalCommitted = slabPageSize * ((owned slabs live).map (·.count)).sum
  aligned : ∀ b ∈ allSlabs slabs, b % slabPageSize = 0
  layout : Layout s.mem s.slabList slabs free live
  small : ∀ blk ∈ live, ¬ blk.Large → Placed slabs free blk
  distinct : live.Pairwise fun x y => x.ptr ≠ y.ptr

theorem mem_allSlabs {slabs : Nat → List Nat} {b : Nat} (hi : i < slabCacheCount)
    (hb : b ∈ slabs i) : b ∈ allSlabs slabs :=
  mem_flatMap.mpr ⟨i, mem_range.mpr hi, hb⟩

theorem largePages_eq (hsize : size + 4103 < 2 ^ 32) : largePages size = (size + 4103) / 4096 := by
  unfold largePages
  simp only [largeHeader, slabPageSize]
  rw [Nat.mod_eq_of_lt (a := size + 8) (by omega), Nat.mod_eq_of_lt (by omega)]
  congr 1

theorem LargeOk.bounds {blk : Block} (hblk : LargeOk mem blk) : largeHeader ≤ blk.ptr ∧
      blk.ptr - largeHeader = blk.ptr / Pmm.blockSize * slabPageSize ∧
      blk.ptr + blk.size ≤ blk.ptr - largeHeader + largePages blk.size * slabPageSize ∧
      0 < largePages blk.size := by
  have hpages := largePages_eq hblk.size
  have hoffset := hblk.offset
  simp only [largeHeader, slabPageSize, Pmm.blockSize] at *
  omega

section Separation

variable {reserved : Nat → Bool} {s : State} {live : List Block} {env : List Pmm.Alloc}
  {slabs : Nat → List Nat} {free : Nat → List Nat}

theorem Inv.slabs_apart (hs : Inv reserved s live env slabs free) :
    (allSlabs slabs).Pairwise fun b b' => slabAlloc₁ b |>.Disjoint (slabAlloc₁ b') := by
  have hpair := (pairwise_append.mp hs.pmm.apart).1
  exact pairwise_map.mp (pairwise_append.mp hpair).1

variable {b b' : Nat}

theorem slabAlloc₁_ne (h : (slabAlloc₁ b).Disjoint (slabAlloc₁ b')) :
    b / Pmm.blockSize ≠ b' / Pmm.blockSize := by
  intro heq
  refine h (b / Pmm.blockSize) ⟨le_rfl, ?_⟩ ⟨heq.ge, ?_⟩
  · simp [slabAlloc₁]
  · simp [slabAlloc₁, heq]

variable (hs : Inv reserved s live env slabs free)

include hs

theorem Inv.allSlabs_nodup : (allSlabs slabs).Nodup :=
  nodup_iff_pairwise_ne.mpr
    (hs.slabs_apart.imp fun {_ _} h heq => slabAlloc₁_ne h (congrArg (· / Pmm.blockSize) heq))

theorem Inv.nodup {i : Nat} (hi : i < slabCacheCount) : (slabs i).Nodup :=
  (nodup_flatMap.mp hs.allSlabs_nodup).1 i (mem_range.mpr hi)

theorem Inv.cache_unique {i j : Nat}
    (hi : i < slabCacheCount) (hj : j < slabCacheCount) (hbi : b ∈ slabs i) (hbj : b ∈ slabs j) : i = j := by
  by_contra hne
  have hpair := (nodup_flatMap.mp hs.allSlabs_nodup).2
  have hsymm : Std.Symm (Function.onFun List.Disjoint slabs) := ⟨fun _ _ h => List.Disjoint.symm h⟩
  exact hpair.forall (mem_range.mpr hi) (mem_range.mpr hj) hne hbi hbj

theorem Inv.slab_apart (hb : b ∈ allSlabs slabs) (hb' : b' ∈ allSlabs slabs) (hne : b ≠ b') :
    b + slabPageSize ≤ b' ∨ b' + slabPageSize ≤ b := by
  have hsymm : Std.Symm fun b b' => (slabAlloc₁ b).Disjoint (slabAlloc₁ b') :=
    ⟨fun _ _ h f hb hb' => h f hb' hb⟩
  have halign := hs.aligned b hb
  have halign' := hs.aligned b' hb'
  simp only [slabPageSize] at *
  omega

theorem Inv.slab_large_apart {blk : Block} (hb : b ∈ allSlabs slabs) (hblk : blk ∈ live) (hlarge : blk.Large) :
    b + slabPageSize ≤ blk.ptr - largeHeader ∨
    blk.ptr - largeHeader + largePages blk.size * slabPageSize ≤ b := by
  have hpair := (pairwise_append.mp hs.pmm.apart).1
  have hdisj := (pairwise_append.mp hpair).2.2 (slabAlloc₁ b) (mem_map_of_mem hb)
    (largeAlloc blk) (mem_map_of_mem (mem_filter.mpr ⟨hblk, by simpa using hlarge⟩))
  have hframe := hdisj (b / Pmm.blockSize) ⟨le_rfl, by simp [slabAlloc₁]⟩
  have hbounds := (hs.layout.large blk hblk hlarge).bounds
  have halign := hs.aligned b hb
  simp only [Pmm.Alloc.Covers, largeAlloc, slabPageSize, Pmm.blockSize, largeHeader] at *
  omega

theorem Inv.large_apart : (live.filter (·.Large)).Pairwise fun x y =>
      x.ptr - largeHeader + largePages x.size * slabPageSize ≤ y.ptr - largeHeader ∨
        y.ptr - largeHeader + largePages y.size * slabPageSize ≤ x.ptr - largeHeader := by
  have hpair := (pairwise_append.mp hs.pmm.apart).1
  have hlarge := pairwise_map.mp (pairwise_append.mp hpair).2.1
  refine hlarge.imp_of_mem fun {x y} hx hy hdisj => ?_
  obtain ⟨hxlive, hxlarge⟩ := mem_filter.mp hx
  obtain ⟨hylive, hylarge⟩ := mem_filter.mp hy
  have hxb := (hs.layout.large x hxlive (by simpa using hxlarge)).bounds
  have hyb := (hs.layout.large y hylive (by simpa using hylarge)).bounds
  -- the later of the two first frames would be covered by both
  have hx1 := hdisj (x.ptr / Pmm.blockSize)
  have hy1 := hdisj (y.ptr / Pmm.blockSize)
  simp only [Pmm.Alloc.Covers, largeAlloc, slabPageSize, Pmm.blockSize, largeHeader] at *
  omega

end Separation

end JexOs.Kheap
