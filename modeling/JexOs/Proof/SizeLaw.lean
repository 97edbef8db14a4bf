import JexOs.Proof.KheapRun
import JexOs.Proof.UserHeap

/-!
# The sizes the two allocators promise

The first sum of `kmalloc` wraps for the last eight sizes: one of them asks for no page and the other seven for a
single one, which is then handed out as a block of nearly 4 GB.
-/

namespace JexOs.Kheap

open ByteMem Linked

/-- The `size` bytes from `p` on are in the heap's frames, in no live block nor the header before it, and in no
header of a slab. -/
structure OwnBytes (reserved : Nat → Bool) (s : State) (live : List Block) (env : List Pmm.Alloc)
    (p size : Nat) : Prop where
  frames : ∀ a, p ≤ a → a < p + size → HeapFrame reserved s.pmm env (a / slabPageSize)
  alone : ∀ blk ∈ live, ∀ a, p ≤ a → a < p + size → ¬blk.Contains a
  large : ∀ blk ∈ live, blk.Large → ∀ a, p ≤ a → a < p + size → a < blk.ptr - largeHeader ∨ blk.ptr ≤ a
  headers : ∀ i, i < slabCacheCount → ∀ slabs, Chain (nextOf s.mem) 0 (s.slabList i) slabs →
    ∀ b ∈ slabs, ∀ a, p ≤ a → a < p + size → a < b ∨ b + slabHeader ≤ a

/-- What `kmalloc(size)` returns is null, or `size` bytes that belong to the new block alone. -/
def SizeLaw (reserved : Nat → Bool) (s : State) (live : List Block) (env : List Pmm.Alloc)
    (size : Nat) : Prop :=
  ∀ p s', kmalloc s size = some (p, s') → p ≠ 0 → OwnBytes reserved s' live env p size

section Size

variable {reserved : Nat → Bool} {s s' : State} {live : List Block} {env : List Pmm.Alloc}
  {slabs : Nat → List Nat} {free : Nat → List Nat} {size p : Nat}

theorem pmmAllocBlocks_full {pmm : Pmm.State}
    (hfull : ∀ f, f < Pmm.totalBlocks → Bitmap.test pmm.bitmap f = true) :
    (Pmm.pmmAllocBlocks pmm 1).1 = 0 := by
  unfold Pmm.pmmAllocBlocks
  split
  · rfl
  · cases hsearch : Pmm.bitmapFirstFreeContiguous pmm.bitmap 1 with
    | none => rfl
    | some frame =>
      obtain ⟨hpos, hbelow, hclear⟩ := Pmm.bitmapFirstFreeContiguous_some hsearch
      have hset := hfull (frame + 0) (by omega)
      rw [hclear 0 hpos] at hset
      cases hset

theorem kmalloc_large (hlarge : slabMaxSize < size) : (kmalloc s size).map Prod.fst = some
      (if (Pmm.pmmAllocBlocks s.pmm (largePages size)).1 = 0 then 0
      else (Pmm.pmmAllocBlocks s.pmm (largePages size)).1 + largeHeader) := by
  have hne : ¬size = 0 := by omega
  unfold kmalloc
  rw [if_neg hne, if_pos hlarge]
  dsimp only
  split
  · rfl
  · rfl

theorem kmalloc_large_eq (hlarge : slabMaxSize < size) (hrun : kmalloc s size = some (p, s')) :
    p = if (Pmm.pmmAllocBlocks s.pmm (largePages size)).1 = 0 then 0
      else (Pmm.pmmAllocBlocks s.pmm (largePages size)).1 + largeHeader := by
  have hfst := kmalloc_large (s := s) hlarge
  rw [hrun] at hfst
  exact Option.some.inj hfst

variable (hkernel : ∀ f, f < Pmm.kernelPages → reserved f = true)

include hkernel

theorem ownBytes_of_small (hs : Inv reserved s live env slabs free) (hwrap : size + 4103 < 2 ^ 32)
    (hrun : kmalloc s size = some (p, s')) (hne : p ≠ 0) : OwnBytes reserved s' live env p size := by
  obtain ⟨p', s₁, slabs', free', hrun', hinv, -⟩ := kmalloc_inv hkernel hs hwrap
  rw [hrun] at hrun'
  cases hrun'
  unfold grantBlock at hinv
  rw [if_neg hne] at hinv
  refine ⟨fun a hlow hhigh => ?_, fun blk hblk a hlow hhigh => ?_, fun blk hblk hlarge a hlow hhigh => ?_,
    fun i hi list hlist b hb a hlow hhigh => ?_⟩
  · exact ((hinv.sound hkernel).inside ⟨p, size⟩ List.mem_cons_self a ⟨hlow, hhigh⟩).1
  · exact (List.pairwise_cons.mp hinv.payloads_disjoint).1 blk hblk a ⟨hlow, hhigh⟩
  · by_contra hinside
    have hdata : HeapData slabs' free' (⟨p, size⟩ :: live) a :=
      .inr ⟨blk, List.mem_cons_of_mem _ hblk, hlarge, by omega, by omega⟩
    exact hinv.heapData_not_payload hdata List.mem_cons_self ⟨hlow, hhigh⟩
  · rw [hlist.unique (hinv.layout.linked i hi)] at hb
    by_contra hinside
    have hdata : HeapData slabs' free' (⟨p, size⟩ :: live) a := .inl ⟨i, hi, b, hb, .inl ⟨by omega, by omega⟩⟩
    exact hinv.heapData_not_payload hdata List.mem_cons_self ⟨hlow, hhigh⟩

/-- `kmalloc` keeps its promise up to `2 ^ 32 - 8`, and beyond that only when there is no frame at all. -/
theorem kmalloc_sizeLaw_iff (hs : Inv reserved s live env slabs free) (hlt : size < 2 ^ 32) :
    SizeLaw reserved s live env size ↔
      size ≤ 2 ^ 32 - 8 ∨ ∀ f, f < Pmm.totalBlocks → Bitmap.test s.pmm.bitmap f = true := by
  have hmax : slabMaxSize = 2048 := rfl
  constructor
  · intro hlaw
    by_contra hshort
    rw [not_or] at hshort
    have hpages := largePages_short (show 2 ^ 32 - 7 ≤ size by omega) hlt
    have hframe : (Pmm.pmmAllocBlocks s.pmm (largePages size)).1 ≠ 0 := by
      rw [hpages]
      exact fun hnull => hshort.2 (Pmm.pmmAllocBlocks_one_eq_zero hkernel hs.pmm hnull)
    obtain ⟨⟨p, s'⟩, hrun, hp⟩ :=
      Option.map_eq_some_iff.mp (kmalloc_large (s := s) (show slabMaxSize < size by omega))
    rw [if_neg hframe] at hp
    have hlast := (hlaw p s' hrun (by omega)).frames (p + size - 1) (by omega) (by omega)
    have htotal : Pmm.totalBlocks = 32768 := by decide
    have hpage : slabPageSize = 4096 := rfl
    have hbelow := hlast.1
    rw [htotal, hpage] at hbelow
    omega
  · rintro (hsize | hfull) p s' hrun hne
    · rcases lt_or_ge (size + 4103) (2 ^ 32) with hwrap | hwraps
      · exact ownBytes_of_small hkernel hs hwrap hrun hne
      · rw [kmalloc_wrapped hwraps hsize] at hrun
        cases hrun
        exact absurd rfl hne
    · rcases lt_or_ge (size + 4103) (2 ^ 32) with hwrap | hwraps
      · exact ownBytes_of_small hkernel hs hwrap hrun hne
      · rcases lt_or_ge (2 ^ 32 - 8) size with hshort | hsize
        · have hp := kmalloc_large_eq (show slabMaxSize < size by omega) hrun
          rw [largePages_short (by omega) hlt, if_pos (pmmAllocBlocks_full hfull)] at hp
          exact absurd hp hne
        · rw [kmalloc_wrapped hwraps hsize] at hrun
          cases hrun
          exact absurd rfl hne

end Size

end JexOs.Kheap

namespace JexOs

open Relation

/-- **The sizes of allocations.** A block of the kernel heap has the bytes that were asked for exactly if no more
than `2 ^ 32 - 8` were, or no frame is free; and one of a program exactly if the request does not overreach. -/
theorem sizeLaws_iff {fuel : Nat} {info : Pmm.MultibootInfo} {pmm₀ : Pmm.State} {mem : ByteMem.Mem}
    (hinit : Pmm.pmmInit fuel info = some pmm₀) {s : Kheap.State} {live : List Kheap.Block}
    {env : List Pmm.Alloc} (hheap : ReflTransGen (Kheap.AnyStep (Bitmap.test pmm₀.bitmap))
      (Kheap.initKheap mem pmm₀, [], []) (s, live, env))
    {p₀ p : UserHeap.Process} {blocks : List Malloc.Live} (hfresh : UserHeap.Fresh p₀)
    (hprogram : ReflTransGen UserHeap.Step (p₀, []) (p, blocks))
    {size n : Nat} (hsize : size < 2 ^ 32) (hpos : 1 ≤ n) (hlt : n < 2 ^ 32) :
    (Kheap.SizeLaw (Bitmap.test pmm₀.bitmap) s live env size ↔
        size ≤ 2 ^ 32 - 8 ∨ ∀ f, f < Pmm.totalBlocks → Bitmap.test s.pmm.bitmap f = true) ∧
      (UserHeap.SizeLaw p n ↔ ¬UserHeap.Overreaches p n) := by
  obtain ⟨hcounted, hkernel⟩ := Pmm.pmmInit_counted hinit
  obtain ⟨slabs, free, hs, -⟩ :=
    Kheap.run_inv hkernel (Kheap.AnyStep.run hheap) ⟨_, _, Kheap.initKheap_inv hcounted mem,
      Kheap.occupied_none _ _⟩
  exact ⟨Kheap.kmalloc_sizeLaw_iff hkernel hs hsize, UserHeap.run_sizeLaw_iff hprogram hfresh rfl hpos hlt⟩

def newProgram : UserHeap.Process where
  mem := fun _ => 0
  heapList := 0
  kernel := Sbrk.fullHeap

/-- 100 bytes from either allocator, right after the boot. -/
theorem sizeLaws_iff_first :
    Kheap.SizeLaw (Bitmap.test Pmm.bootState.bitmap) (Kheap.initKheap (fun _ => 0) Pmm.bootState) [] [] 100 ∧
      UserHeap.SizeLaw newProgram 100 := by
  have hfresh : UserHeap.Fresh newProgram := ⟨rfl, by decide, by decide, by decide⟩
  have hboot : ReflTransGen (Kheap.AnyStep (Bitmap.test Pmm.bootState.bitmap))
      (Kheap.initKheap (fun _ => 0) Pmm.bootState, [], [])
      (Kheap.initKheap (fun _ => 0) Pmm.bootState, [], []) := .refl
  obtain ⟨hkernel, hprogram⟩ := sizeLaws_iff Pmm.pmmInit_no_map hboot hfresh .refl
    (show 100 < 2 ^ 32 by decide) (show 1 ≤ 100 by decide) (show 100 < 2 ^ 32 by decide)
  exact ⟨hkernel.mpr (.inl (by decide)), hprogram.mpr fun hover => absurd hover.1 (by decide)⟩

/-- `kmalloc(0xFFFFFFF9)` hands out one page. -/
theorem not_sizeLaw_boot :
    ¬Kheap.SizeLaw (Bitmap.test Pmm.bootState.bitmap) (Kheap.initKheap (fun _ => 0) Pmm.bootState) [] []
      4294967289 := by
  intro hlaw
  have hs := Kheap.initKheap_inv Pmm.bootState_booted.counted fun _ => 0
  rcases (Kheap.kmalloc_sizeLaw_iff Pmm.bootState_booted.kernel hs (by decide)).mp hlaw with hsize | hfull
  · exact absurd hsize (by decide)
  · have hset := hfull Pmm.kernelPages (by decide)
    have hclear := Pmm.bootState_free (f := Pmm.kernelPages) le_rfl (by decide)
    exact absurd (hset.symm.trans hclear) (by decide)

end JexOs
