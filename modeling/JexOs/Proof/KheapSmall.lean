import JexOs.Proof.KheapRun
import JexOs.Proof.PmmFirstFit
import JexOs.Proof.PmmLent

/-!
# The frame behind a small block

A request that fits a cache takes no frame while some slab of the cache has a free object, and the frame of a
new slab otherwise.
-/

namespace JexOs.Kheap

open ByteMem Linked List

def HasFree (s : State) (i : Nat) : Prop :=
  ∃ slabs, Chain (nextOf s.mem) 0 (s.slabList i) slabs ∧ ∃ b ∈ slabs, freeCountOf s.mem b ≠ 0

/-- The small blocks of `live` are the objects in use, and its large blocks have their headers. -/
def Tracks (s : State) (live : List Block) : Prop :=
  ∃ slabs free, Layout s.mem s.slabList slabs free live ∧
    (∀ blk ∈ live, ¬blk.Large → Placed slabs free blk) ∧ Occupied slabs free live

structure Served (reserved : Nat → Bool) (live : List Block) (env : List Pmm.Alloc) (size p : Nat)
    (s' : State) : Prop where
  ne_zero : p ≠ 0
  inv : ∃ slabs free, Inv reserved s' (⟨p, size⟩ :: live) env slabs free ∧
    Occupied slabs free (⟨p, size⟩ :: live)

section

variable {reserved : Nat → Bool} {s s' : State} {live : List Block} {env : List Pmm.Alloc}
  {slabs free : Nat → List Nat} {i p size slab : Nat}

theorem Inv.tracks (hs : Inv reserved s live env slabs free)
    (hoccupied : Occupied slabs free live) : Tracks s live :=
  ⟨slabs, free, hs.layout, hs.small, hoccupied⟩

theorem slabPop_ne_zero (s : State) (slab : Nat) : (slabPop s slab).1 ≠ 0 := by
  simp only [slabPop, objAddr, slabHeader]
  omega

theorem slabAlloc_found (hfind : findSlab s.mem (Pmm.totalBlocks + 1) (s.slabList i) = some slab)
    (hslab : slab ≠ 0) : slabAlloc s i = some (slabPop s slab) := by
  obtain ⟨k, rfl⟩ := Nat.exists_eq_succ_of_ne_zero hslab
  unfold slabAlloc
  rw [hfind]
  rfl

theorem slabAlloc_full (hfind : findSlab s.mem (Pmm.totalBlocks + 1) (s.slabList i) = some 0)
    (hfull : Pmm.pmmAllocBlocks s.pmm 1 = (0, s.pmm)) : slabAlloc s i = some (0, s) := by
  unfold slabAlloc
  rw [hfind]
  simp only [slabCreate, hfull, if_true]

theorem slabAlloc_new {pmm : Pmm.State} (hfind : findSlab s.mem (Pmm.totalBlocks + 1) (s.slabList i) = some 0)
    (hnew : Pmm.pmmAllocBlocks s.pmm 1 = (p, pmm)) (hp : p ≠ 0) :
    ∃ s₁, s₁.pmm = pmm ∧ slabAlloc s i = some (slabPop s₁ p) := by
  unfold slabAlloc
  rw [hfind]
  simp only [slabCreate, hnew, if_neg hp]
  exact ⟨_, rfl, rfl⟩

variable (hkernel : ∀ f, f < Pmm.kernelPages → reserved f = true)

include hkernel

theorem Inv.zero_reserved (hs : Inv reserved s live env slabs free) : Bitmap.test s.pmm.bitmap 0 = true :=
  (hs.pmm.bits 0 (by decide)).mpr (.inl (hkernel 0 (by decide)))

theorem kmalloc_small (hs : Inv reserved s live env slabs free) (hoccupied : Occupied slabs free live)
    (hpos : 0 < size) (hsize : size ≤ slabMaxSize) : ∃ p s', kmalloc s size = some (p, s') ∧
      ((HasFree s (sizeClass size) ∧ s'.pmm = s.pmm ∧ Served reserved live env size p s') ∨
        ¬HasFree s (sizeClass size) ∧ ((Pmm.pmmAllocBlock s.pmm = (0, s.pmm) ∧ p = 0 ∧ s' = s) ∨
            ∃ f, f < Pmm.totalBlocks ∧ Bitmap.test s.pmm.bitmap f = false ∧
              Pmm.pmmAllocBlock s.pmm = (f * Pmm.blockSize, s.pmm.markUsed f) ∧
              s'.pmm = s.pmm.markUsed f ∧ Served reserved live env size p s')) := by
  have hi := sizeClass_lt size
  have hlinked := hs.layout.linked _ hi
  have hlength := hs.length_le hi
  have hkmalloc : kmalloc s size = slabAlloc s (sizeClass size) := by
    unfold kmalloc
    rw [if_neg (by omega), if_neg (by omega)]
  obtain ⟨p, s', slabs', free', hrun, hinv, hocc, -⟩ := slabAlloc_inv hkernel hs hpos hsize
  have hserved : p ≠ 0 → Served reserved live env size p s' := fun hp => by
    have hgrant : grantBlock p size live = ⟨p, size⟩ :: live := if_neg hp
    rw [hgrant] at hinv hocc
    exact ⟨hp, slabs', free', hinv, hocc hoccupied⟩
  refine ⟨p, s', hkmalloc.trans hrun, ?_⟩
  obtain ⟨slab, hfind, hslab⟩ := findSlab_spec hlinked (show _ < Pmm.totalBlocks + 1 by omega)
  rcases hslab with ⟨rfl, hnone⟩ | ⟨hne, hmem, hcount⟩
  · refine .inr ⟨fun ⟨slabs₂, hchain, b, hb, hfree⟩ => ?_, ?_⟩
    · rw [hchain.unique hlinked] at hb
      exact hfree (hnone b hb)
    · have hone := Pmm.pmmAllocBlock_eq hs.pmm.counted
      rcases Pmm.pmmAllocBlock_taken (hs.zero_reserved hkernel) with hfull | ⟨f, hf, hclear, hf0, hnew⟩
      · rw [slabAlloc_full hfind (hone ▸ hfull)] at hrun
        cases hrun
        exact .inl ⟨hfull, rfl, rfl⟩
      · have haddr : f * Pmm.blockSize ≠ 0 := Nat.mul_ne_zero hf0 (by decide)
        obtain ⟨s₁, hpmm, halloc⟩ := slabAlloc_new hfind (hone ▸ hnew) haddr
        rw [halloc] at hrun
        cases hrun
        exact .inr ⟨f, hf, hclear, hnew, hpmm, hserved (slabPop_ne_zero s₁ _)⟩
  · rw [slabAlloc_found hfind hne] at hrun
    cases hrun
    exact .inl ⟨⟨_, hlinked, slab, hmem, hcount⟩, rfl, hserved (slabPop_ne_zero s slab)⟩

omit hkernel in
theorem Served.kfree (h : Served reserved live env size p s') (hsize : size ≤ slabMaxSize) (pmm : Pmm.State) :
    (Kheap.kfree { s' with pmm := pmm } p).pmm = pmm ∧
      Tracks (Kheap.kfree { s' with pmm := pmm } p) live := by
  obtain ⟨slabs, free, hinv, hoccupied⟩ := h.inv
  have hmem : (⟨p, size⟩ : Block) ∈ (⟨p, size⟩ : Block) :: live := mem_cons_self
  have hsmall : ¬(⟨p, size⟩ : Block).Large := not_lt.mpr hsize
  have hfree := hinv.kfree_small hmem hsmall
  obtain ⟨free', hinv', hocc'⟩ := kfree_small_inv hinv hmem hsmall
  rw [erase_cons_head] at hinv' hocc'
  have htracks := hinv'.tracks (hocc' hoccupied)
  have hback : Kheap.kfree s' p = slabFree s' (pageOf p) p := hfree s'.pmm
  rw [hback] at htracks
  rw [hfree pmm]
  exact ⟨rfl, htracks⟩

omit hkernel in
theorem Served.not_tracks (h : Served reserved live env size p s') (hsize : size ≤ slabMaxSize)
    (pmm : Pmm.State) : ¬Tracks { s' with pmm := pmm } live := by
  rintro ⟨slabs', free', hlayout, -, hoccupied'⟩
  obtain ⟨slabs, free, hinv, -⟩ := h.inv
  have hmem : (⟨p, size⟩ : Block) ∈ (⟨p, size⟩ : Block) :: live := mem_cons_self
  obtain ⟨-, b, hb, idx, hidx, hnot, hptr⟩ := hinv.small _ hmem (not_lt.mpr hsize)
  have hi := sizeClass_lt size
  have hsame := (hlayout.linked _ hi).unique (hinv.layout.linked _ hi)
  rw [← hsame] at hb
  have hfree : free' b = free b :=
    (hlayout.slab _ hi b hb).chain.unique (hinv.layout.slab _ hi b (hsame ▸ hb)).chain
  rw [← hfree] at hnot
  obtain ⟨blk, hblk, -, hblkPtr⟩ := hoccupied' _ hi b hb idx hidx hnot
  exact (pairwise_cons.mp hinv.distinct).1 blk hblk (hptr.trans hblkPtr.symm)

end

end JexOs.Kheap
