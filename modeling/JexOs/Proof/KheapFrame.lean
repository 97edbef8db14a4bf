import JexOs.Proof.Kheap

/-!
# The slab heap: what may change around it

`HeapData` names the heap's own bytes; a memory that agrees on them satisfies the invariant again.
-/

namespace JexOs.Kheap

open ByteMem Linked List

def HeapData (slabs : Nat → List Nat) (free : Nat → List Nat) (live : List Block) (a : Nat) : Prop :=
  (∃ i, i < slabCacheCount ∧ ∃ b ∈ slabs i, SlabData i b (free b) a) ∨
    ∃ blk ∈ live, blk.Large ∧ blk.ptr - largeHeader ≤ a ∧ a < blk.ptr

variable {mem mem' : Mem}

theorem LargeOk.congr {blk : Block} (hblk : LargeOk mem blk)
    (hmem : ∀ a, blk.ptr - largeHeader ≤ a → a < blk.ptr → mem' a = mem a) : LargeOk mem' blk := by
  have hlow := hblk.bounds.1
  exact
    { size := hblk.size
      offset := hblk.offset
      magic := by
        rw [← hblk.magic]
        exact load32_congr fun k _ _ => hmem k (by simp only [largeHeader] at *; omega)
          (by simp only [largeHeader] at *; omega)
      pages := by
        rw [← hblk.pages]
        exact load32_congr fun k _ _ => hmem k (by simp only [largeHeader] at *; omega)
          (by simp only [largeHeader] at *; omega) }

theorem nextOf_congr {b : Nat}
    (hmem : ∀ a, b ≤ a → a < b + slabHeader → mem' a = mem a) : nextOf mem' b = nextOf mem b :=
  load32_congr fun k _ _ => hmem k (by omega) (by simp only [slabHeader]; omega)

theorem Layout.congr {slabList : Nat → Nat} {slabs free : Nat → List Nat}
    {live : List Block} (hlayout : Layout mem slabList slabs free live)
    (hmem : ∀ a, HeapData slabs free live a → mem' a = mem a) : Layout mem' slabList slabs free live :=
  { linked := fun i hi => (hlayout.linked i hi).congr fun b hb =>
      nextOf_congr fun a hlow hhigh => hmem a (.inl ⟨i, hi, b, hb, .inl ⟨hlow, hhigh⟩⟩)
    slab := fun i hi b hb => (hlayout.slab i hi b hb).congr fun a ha =>
      hmem a (.inl ⟨i, hi, b, hb, ha⟩)
    large := fun blk hblk hlarge => (hlayout.large blk hblk hlarge).congr fun a hlow hhigh =>
      hmem a (.inr ⟨blk, hblk, hlarge, hlow, hhigh⟩) }

section Frame

variable {reserved : Nat → Bool} {s : State} {live : List Block} {env : List Pmm.Alloc}
  {slabs : Nat → List Nat} {free : Nat → List Nat}

variable {blk : Block} {b a : Nat}

variable (hs : Inv reserved s live env slabs free)

include hs

theorem Inv.small_bounds (hblk : blk ∈ live) (hsmall : ¬ blk.Large) :
    ∃ b ∈ slabs (sizeClass blk.size), b + slabHeader ≤ blk.ptr ∧ blk.ptr + blk.size ≤ b + slabPageSize := by
  obtain ⟨_, b, hb, idx, hidx, _, hptr⟩ := hs.small blk hblk hsmall
  have hbounds := objAddr_bounds hidx b
  have hfits := le_objSize_sizeClass (Nat.le_of_not_lt hsmall)
  exact ⟨b, hb, hptr ▸ hbounds.1, by omega⟩

theorem Inv.large_ne_apart {x y : Block} (hx : x ∈ live) (hy : y ∈ live) (hxl : x.Large)
    (hyl : y.Large) (hne : x ≠ y) :
    x.ptr - largeHeader + largePages x.size * slabPageSize ≤ y.ptr - largeHeader ∨
      y.ptr - largeHeader + largePages y.size * slabPageSize ≤ x.ptr - largeHeader := by
  have hsymm : Std.Symm fun x y : Block =>
      x.ptr - largeHeader + largePages x.size * slabPageSize ≤ y.ptr - largeHeader ∨
        y.ptr - largeHeader + largePages y.size * slabPageSize ≤ x.ptr - largeHeader :=
    ⟨fun _ _ h => h.symm⟩
  exact hs.large_apart.forall (mem_filter.mpr ⟨hx, by simpa using hxl⟩)
    (mem_filter.mpr ⟨hy, by simpa using hyl⟩) hne

theorem Inv.slabData_not_payload {i : Nat} (hi : i < slabCacheCount) (hb : b ∈ slabs i)
    (ha : SlabData i b (free b) a) (hblk : blk ∈ live) : ¬ blk.Contains a := by
  have hslab := hs.layout.slab i hi b hb
  have hpage := hslab.page hi ha
  rintro ⟨hlow, hhigh⟩
  by_cases hlarge : blk.Large
  · have hapart := hs.slab_large_apart (mem_allSlabs hi hb) hblk hlarge
    have hbounds := (hs.layout.large blk hblk hlarge).bounds
    omega
  · obtain ⟨_, b', hb', idx', hidx', hfree', hptr⟩ := hs.small blk hblk hlarge
    have hfits := le_objSize_sizeClass (Nat.le_of_not_lt hlarge)
    have hbounds := objAddr_bounds hidx' b'
    by_cases heq : b = b'
    · subst heq
      obtain rfl := hs.cache_unique hi (sizeClass_lt _) hb hb'
      rcases ha with hheader | ⟨idx, hidx, halow, hahigh⟩
      · omega
      · have hne : idx ≠ idx' := fun heq => hfree' (heq ▸ hidx)
        have hapart := objAddr_apart b (objSize (sizeClass blk.size)) hne
        have hsize := objSize_pos hi
        omega
    · have hapart := hs.slab_apart (mem_allSlabs hi hb) (mem_allSlabs (sizeClass_lt _) hb') heq
      omega

theorem Inv.heapData_not_payload (ha : HeapData slabs free live a) (hblk : blk ∈ live) : ¬ blk.Contains a := by
  rcases ha with ⟨i, hi, b, hb, ha⟩ | ⟨owner, howner, hlarge, hlow, hhigh⟩
  · exact hs.slabData_not_payload hi hb ha hblk
  · rintro ⟨hblow, hbhigh⟩
    have hownerBounds := (hs.layout.large owner howner hlarge).bounds
    by_cases hblkLarge : blk.Large
    · have hblkBounds := (hs.layout.large blk hblk hblkLarge).bounds
      by_cases heq : blk = owner
      · subst heq
        omega
      · have hapart := hs.large_ne_apart hblk howner hblkLarge hlarge heq
        omega
    · obtain ⟨b, hb, hbase, hend⟩ := hs.small_bounds hblk hblkLarge
      have hapart := hs.slab_large_apart (mem_allSlabs (sizeClass_lt _) hb) howner hlarge
      omega

theorem Inv.payloads_disjoint : live.Pairwise Block.Disjoint := by
  refine hs.distinct.imp_of_mem fun {x y} hx hy hptr a hxa hya => ?_
  have hxy : x ≠ y := fun heq => hptr (congrArg Block.ptr heq)
  obtain ⟨hxlow, hxhigh⟩ := hxa
  obtain ⟨hylow, hyhigh⟩ := hya
  by_cases hxl : x.Large
  · have hxb := (hs.layout.large x hx hxl).bounds
    by_cases hyl : y.Large
    · have hyb := (hs.layout.large y hy hyl).bounds
      have hapart := hs.large_ne_apart hx hy hxl hyl hxy
      omega
    · obtain ⟨b, hb, hbase, hend⟩ := hs.small_bounds hy hyl
      have hapart := hs.slab_large_apart (mem_allSlabs (sizeClass_lt _) hb) hx hxl
      omega
  · obtain ⟨_, b, hb, idx, hidx, _, hxptr⟩ := hs.small x hx hxl
    have hxfits := le_objSize_sizeClass (Nat.le_of_not_lt hxl)
    have hxbounds := objAddr_bounds hidx b
    by_cases hyl : y.Large
    · have hyb := (hs.layout.large y hy hyl).bounds
      have hapart := hs.slab_large_apart (mem_allSlabs (sizeClass_lt _) hb) hy hyl
      omega
    · obtain ⟨_, b', hb', idx', hidx', _, hyptr⟩ := hs.small y hy hyl
      have hyfits := le_objSize_sizeClass (Nat.le_of_not_lt hyl)
      have hybounds := objAddr_bounds hidx' b'
      by_cases heq : b = b'
      · subst heq
        have hclass := hs.cache_unique (sizeClass_lt _) (sizeClass_lt _) hb hb'
        rw [← hclass] at hyptr hyfits
        have hne : idx ≠ idx' := by
          intro heq
          apply hptr
          rw [hxptr, hyptr, heq]
        have hapart := objAddr_apart b (objSize (sizeClass x.size)) hne
        omega
      · have hapart := hs.slab_apart (mem_allSlabs (sizeClass_lt _) hb) (mem_allSlabs (sizeClass_lt _) hb') heq
        omega

def HeapFrame (reserved : Nat → Bool) (pmm : Pmm.State) (env : List Pmm.Alloc) (f : Nat) : Prop :=
  f < Pmm.totalBlocks ∧ Bitmap.test pmm.bitmap f = true ∧ reserved f = false ∧
    ∀ a ∈ env, ¬ a.Covers f

theorem Inv.heapFrame_iff (f : Nat) : HeapFrame reserved s.pmm env f ↔ ∃ a ∈ owned slabs live, a.Covers f := by
  constructor
  · rintro ⟨hf, hset, hreserved, henv⟩
    rcases (hs.pmm.bits f hf).mp hset with hres | ⟨a, ha, hcovers⟩
    · simp [hreserved] at hres
    · rcases mem_append.mp ha with ha | ha
      · exact ⟨a, ha, hcovers⟩
      · exact absurd hcovers (henv a ha)
  · rintro ⟨a, ha, hcovers⟩
    have hmem : a ∈ owned slabs live ++ env := mem_append_left env ha
    have hf : f < Pmm.totalBlocks := lt_of_lt_of_le hcovers.2 (hs.pmm.below a hmem)
    refine ⟨hf, (hs.pmm.bits f hf).mpr (.inr ⟨a, hmem, hcovers⟩), hs.pmm.fresh a hmem f hcovers,
      fun e he hcov => ?_⟩
    exact (pairwise_append.mp hs.pmm.apart).2.2 a ha e he f hcovers hcov

theorem Inv.slab_page_frame (hb : b ∈ allSlabs slabs) (hlow : b ≤ a) (hhigh : a < b + slabPageSize) :
    HeapFrame reserved s.pmm env (a / slabPageSize) := by
  rw [hs.heapFrame_iff]
  refine ⟨slabAlloc₁ b, mem_append_left _ (mem_map_of_mem hb), ?_⟩
  have halign := hs.aligned b hb
  simp only [Pmm.Alloc.Covers, slabAlloc₁, slabPageSize, Pmm.blockSize] at *
  omega

theorem Inv.large_frame (hblk : blk ∈ live) (hlarge : blk.Large) (hlow : blk.ptr - largeHeader ≤ a)
    (hhigh : a < blk.ptr - largeHeader + largePages blk.size * slabPageSize) :
    HeapFrame reserved s.pmm env (a / slabPageSize) := by
  rw [hs.heapFrame_iff]
  refine ⟨largeAlloc blk, mem_append_right _
    (mem_map_of_mem (mem_filter.mpr ⟨hblk, by simpa using hlarge⟩)), ?_⟩
  have hbounds := (hs.layout.large blk hblk hlarge).bounds
  simp only [Pmm.Alloc.Covers, largeAlloc, slabPageSize, Pmm.blockSize, largeHeader] at *
  omega

theorem Inv.heapData_frame (ha : HeapData slabs free live a) :
    HeapFrame reserved s.pmm env (a / slabPageSize) := by
  rcases ha with ⟨i, hi, b, hb, ha⟩ | ⟨blk, hblk, hlarge, hlow, hhigh⟩
  · have hpage := (hs.layout.slab i hi b hb).page hi ha
    exact hs.slab_page_frame (mem_allSlabs hi hb) hpage.1 hpage.2
  · have hbounds := (hs.layout.large blk hblk hlarge).bounds
    exact hs.large_frame hblk hlarge hlow (by omega)

/-- The invariant survives any change to live payloads and to memory outside the heap's frames. -/
theorem Inv.write {mem' : Mem} (hmem : ∀ a, mem' a ≠ s.mem a →
      (∃ blk ∈ live, blk.Contains a) ∨ ¬ HeapFrame reserved s.pmm env (a / slabPageSize)) :
    Inv reserved { s with mem := mem' } live env slabs free :=
  { pmm := hs.pmm
    committed := hs.committed
    aligned := hs.aligned
    layout := hs.layout.congr fun a ha => by
      by_contra hne
      rcases hmem a hne with ⟨blk, hblk, hcontains⟩ | hframe
      · exact hs.heapData_not_payload ha hblk hcontains
      · exact hframe (hs.heapData_frame ha)
    small := hs.small
    distinct := hs.distinct }

end Frame

end JexOs.Kheap
