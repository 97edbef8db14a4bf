import JexOs.Proof.KheapRun

/-!
# What `kheap_reclaim` does

The walks take the slabs without a live object off the eight lists and return their frames; the lists that are
left are the old ones without them.
-/

namespace JexOs.Kheap

open ByteMem Linked List

section Reclaim

variable {reserved : Nat → Bool} {s s' : State} {live : List Block} {env : List Pmm.Alloc}
  {slabs slabs' : Nat → List Nat} {free : Nat → List Nat} {i b : Nat}

def emptySlab (live : List Block) (b : Nat) : Bool :=
  live.all fun blk => !decide (b ≤ blk.ptr ∧ blk.ptr < b + slabPageSize)

theorem emptySlab_iff : emptySlab live b = true ↔
    ∀ blk ∈ live, ¬(b ≤ blk.ptr ∧ blk.ptr < b + slabPageSize) := by
  unfold emptySlab
  simp only [all_eq_true, Bool.not_eq_true', decide_eq_false_iff_not]

theorem Inv.full_iff (hs : Inv reserved s live env slabs free) (hoccupied : Occupied slabs free live)
    (hi : i < slabCacheCount) (hb : b ∈ slabs i) :
    (free b).length = objsPerSlab i ↔ emptySlab live b = true := by
  have hok := hs.layout.slab i hi b hb
  have hball := mem_allSlabs hi hb
  have halign := hs.aligned b hball
  rw [emptySlab_iff]
  constructor
  · intro hfull blk hblk ⟨hlow, hhigh⟩
    by_cases hlarge : blk.Large
    · have hapart := hs.slab_large_apart hball hblk hlarge
      have hbounds := (hs.layout.large blk hblk hlarge).bounds
      simp only [slabPageSize, largeHeader] at *
      omega
    · obtain ⟨-, c, hc, idx, hidx, hnot, hptr⟩ := hs.small blk hblk hlarge
      have hj := sizeClass_lt blk.size
      have hbounds := objAddr_bounds hidx c
      have hsize := objSize_pos hj
      have hpage : pageOf blk.ptr = c := pageOf_eq (hs.aligned c (mem_allSlabs hj hc)) (by omega) (by omega)
      obtain rfl : c = b := hpage.symm.trans (pageOf_eq halign hlow hhigh)
      obtain rfl := hs.cache_unique hi hj hb hc
      exact hnot (hok.mem_free_of_full hfull hidx)
  · intro hempty
    by_contra hless
    -- an object that is not free is live, so all of them are
    have hsub : List.range (objsPerSlab i) ⊆ free b := fun idx hidx => by
      rw [mem_range] at hidx
      by_contra hused
      obtain ⟨blk, hblk, -, hptr⟩ := hoccupied i hi b hb idx hidx hused
      have hbounds := objAddr_bounds hidx b
      have hsize := objSize_pos hi
      exact hempty blk hblk ⟨by omega, by omega⟩
    have hle := (subperm_of_subset nodup_range hsub).length_le
    have hge := (subperm_of_subset hok.nodup fun idx hidx => mem_range.mpr (hok.bound idx hidx)).length_le
    rw [length_range] at hle hge
    omega

theorem Inv.inUse_eq (hs : Inv reserved s live env slabs free) (hoccupied : Occupied slabs free live)
    (hi : i < slabCacheCount) : inUse free i (slabs i) = (slabs i).filter fun b => !emptySlab live b := by
  refine filter_congr fun b hb => ?_
  rw [Bool.eq_iff_iff, decide_eq_true_iff, Bool.not_eq_true', ne_eq, hs.full_iff hoccupied hi hb,
    Bool.not_eq_true]

theorem allSlabs_filter (p : Nat → Bool) (h : ∀ i, i < slabCacheCount → slabs' i = (slabs i).filter p) :
    allSlabs slabs' = (allSlabs slabs).filter p := by
  unfold allSlabs
  rw [filter_flatMap]
  refine flatMap_congr fun i hi => ?_
  exact h i (mem_range.mp hi)

theorem reclaimCache_still {nodes : List Nat} {head fuel : Nat} (prev : Nat)
    (hchain : Chain (nextOf s.mem) 0 head nodes) (hfuel : nodes.length < fuel)
    (hused : ∀ b ∈ nodes, freeCountOf s.mem b ≠ objCountOf s.mem b) :
    reclaimCache i fuel prev head s = some s := by
  induction nodes generalizing prev head fuel with
  | nil =>
    obtain ⟨fuel, rfl⟩ := Nat.exists_eq_add_of_lt hfuel
    have hhead : head = 0 := hchain
    rw [length_nil, Nat.zero_add, reclaimCache, if_pos hhead]
  | cons b nodes ih =>
    obtain ⟨fuel, rfl⟩ : ∃ k, fuel = k + 1 := ⟨fuel - 1, by rw [length_cons] at hfuel; omega⟩
    obtain ⟨rfl, hne, hrest⟩ := hchain
    obtain ⟨hb, hused⟩ := forall_mem_cons.mp hused
    rw [reclaimCache, if_neg hne]
    rw [if_neg fun hfull => hb hfull.1]
    exact ih _ hrest (Nat.lt_of_succ_lt_succ hfuel) hused

theorem kheapReclaim_still (hs : Inv reserved s live env slabs free)
    (hused : ∀ i, i < slabCacheCount → ∀ b ∈ slabs i, (free b).length ≠ objsPerSlab i) :
    kheapReclaim s = some s := by
  have hcaches : ∀ i ∈ List.range slabCacheCount, i < slabCacheCount := fun i hi => mem_range.mp hi
  unfold kheapReclaim
  generalize List.range slabCacheCount = caches at hcaches
  induction caches with
  | nil => rfl
  | cons i caches ih =>
    have hi := hcaches i mem_cons_self
    have hlength := hs.length_le hi
    have hstill := reclaimCache_still (i := i) 0 (hs.layout.linked i hi)
      (show _ < Pmm.totalBlocks + 1 by omega) fun b hb => by
        have hok := hs.layout.slab i hi b hb
        rw [hok.freeCount, hok.count]
        exact hused i hi b hb
    rw [foldlM_cons, hstill]
    exact ih fun j hj => hcaches j (mem_cons_of_mem i hj)

/-- The slabs without a live object are gone and their frames returned, and nothing else has changed but the links
between the others. -/
structure Reclaimed (reserved : Nat → Bool) (slabs : Nat → List Nat) (live : List Block)
    (env : List Pmm.Alloc) (s s' : State) : Prop where
  lists : ∀ i, i < slabCacheCount → Chain (nextOf s'.mem) 0 (s'.slabList i)
    ((slabs i).filter fun b => !emptySlab live b)
  contents : ∀ a, (∀ b ∈ allSlabs slabs, emptySlab live b = false → ¬(b + 4 ≤ a ∧ a < b + 8)) →
    s'.mem a = s.mem a
  frames : ∀ f, f < Pmm.totalBlocks → (Bitmap.test s'.pmm.bitmap f = true ↔
    Bitmap.test s.pmm.bitmap f = true ∧
      ¬∃ b ∈ allSlabs slabs, emptySlab live b = true ∧ f = b / slabPageSize)
  committed : s.totalCommitted =
    s'.totalCommitted + slabPageSize * ((allSlabs slabs).filter (emptySlab live)).length
  payloads : ∀ blk ∈ live, ∀ a, blk.Contains a →
    s'.mem a = s.mem a ∧ HeapFrame reserved s'.pmm env (a / slabPageSize)
  again : kheapReclaim s' = some s'

theorem owned_perm (hslabs : allSlabs slabs' = (allSlabs slabs).filter fun b => !emptySlab live b) :
    (owned slabs live).Perm (((allSlabs slabs).filter (emptySlab live)).map slabAlloc₁ ++
      owned slabs' live) := by
  unfold owned
  rw [← append_assoc, ← map_append, hslabs]
  exact ((filter_append_perm (emptySlab live) (allSlabs slabs)).symm.map slabAlloc₁).append_right _

theorem slabAlloc₁_covers {f : Nat} : (slabAlloc₁ b).Covers f ↔ f = b / slabPageSize := by
  unfold Pmm.Alloc.Covers slabAlloc₁
  simp only [slabPageSize, Pmm.blockSize]
  omega

theorem Inv.reclaimed (hkernel : ∀ f, f < Pmm.kernelPages → reserved f = true)
    (hs : Inv reserved s live env slabs free) (hoccupied : Occupied slabs free live) :
    ∃ s', kheapReclaim s = some s' ∧ Reclaimed reserved slabs live env s s' := by
  obtain ⟨s', slabs', hrun, hs', hkept, hlinks⟩ := kheapReclaim_inv hs
  have hslabs : ∀ i, i < slabCacheCount → slabs' i = (slabs i).filter fun b => !emptySlab live b :=
    fun i hi => (hkept i hi).trans (hs.inUse_eq hoccupied hi)
  have hall := allSlabs_filter _ hslabs
  have hperm := owned_perm hall
  have hpmm := hs.pmm.perm (hperm.append_right env)
  rw [append_assoc] at hpmm
  have hcontents : ∀ a, (∀ b ∈ allSlabs slabs, emptySlab live b = false → ¬(b + 4 ≤ a ∧ a < b + 8)) →
      s'.mem a = s.mem a := by
    intro a ha
    refine hlinks a fun b hb => ?_
    rw [hall, mem_filter, Bool.not_eq_true'] at hb
    exact ha b hb.1 hb.2
  refine ⟨s', hrun, fun i hi => hslabs i hi ▸ hs'.layout.linked i hi, hcontents, fun f hf => ?_, ?_,
    fun blk hblk a ha => ⟨hcontents a fun b hb _ hlink => ?_, ?_⟩, ?_⟩
  · rw [hs'.pmm.bits f hf, hpmm.bits f hf]
    have hgone : (∃ a ∈ ((allSlabs slabs).filter (emptySlab live)).map slabAlloc₁, a.Covers f) ↔
        ∃ b ∈ allSlabs slabs, emptySlab live b = true ∧ f = b / slabPageSize := by
      constructor
      · rintro ⟨a, ha, hcovers⟩
        obtain ⟨b, hb, rfl⟩ := mem_map.mp ha
        obtain ⟨hb, hempty⟩ := mem_filter.mp hb
        exact ⟨b, hb, hempty, slabAlloc₁_covers.mp hcovers⟩
      · rintro ⟨b, hb, hempty, hf⟩
        exact ⟨_, mem_map_of_mem (mem_filter.mpr ⟨hb, hempty⟩), slabAlloc₁_covers.mpr hf⟩
    constructor
    · intro hset
      refine ⟨hset.imp_right fun ⟨a, ha, hcovers⟩ => ⟨a, mem_append_right _ ha, hcovers⟩, fun hempty => ?_⟩
      obtain ⟨c, hc, hcovers⟩ := hgone.mpr hempty
      rcases hset with hreserved | ⟨a, ha, hacovers⟩
      · have hfresh := hpmm.fresh c (mem_append_left _ hc) f hcovers
        rw [hreserved] at hfresh
        cases hfresh
      · exact (pairwise_append.mp hpmm.apart).2.2 c hc a ha f hcovers hacovers
    · rintro ⟨hreserved | ⟨a, ha, hcovers⟩, hnot⟩
      · exact .inl hreserved
      · rcases mem_append.mp ha with ha | ha
        · exact absurd (hgone.mp ⟨a, ha, hcovers⟩) hnot
        · exact .inr ⟨a, ha, hcovers⟩
  · have hsum := (hperm.map (·.count)).sum_eq
    have hone : ∀ list : List Nat, ((list.map slabAlloc₁).map (·.count)).sum = list.length := by
      intro list
      induction list with
      | nil => rfl
      | cons b list ih =>
        rw [map_cons, map_cons, sum_cons, ih, length_cons, Nat.add_comm]
        rfl
    rw [map_append, sum_append, hone] at hsum
    rw [hs.committed, hs'.committed, hsum, Nat.mul_add, Nat.add_comm]
  · obtain ⟨j, hj, hbj⟩ := mem_flatMap.mp hb
    have hdata : HeapData slabs free live a :=
      .inl ⟨j, mem_range.mp hj, b, hbj, .inl ⟨by omega, by simp only [slabHeader]; omega⟩⟩
    exact hs.heapData_not_payload hdata hblk ha
  · exact ((hs'.sound hkernel).inside blk hblk a ha).1
  · refine kheapReclaim_still hs' fun i hi b hb => ?_
    rw [hkept i hi] at hb
    exact of_decide_eq_true (mem_filter.mp hb).2

end Reclaim

/-- **Reclaiming.** In every state of every run after boot, `kheap_reclaim` returns the frames of the slabs without
a live object, and these only. -/
theorem kheapReclaim_exact {fuel : Nat} {info : Pmm.MultibootInfo} {pmm₀ : Pmm.State} {mem : Mem}
    (hinit : Pmm.pmmInit fuel info = some pmm₀) {s : State} {live : List Block} {env : List Pmm.Alloc}
    (hrun : Relation.ReflTransGen (AnyStep (Bitmap.test pmm₀.bitmap)) (initKheap mem pmm₀, [], [])
      (s, live, env)) :
    ∃ slabs s', (∀ i, i < slabCacheCount → Chain (nextOf s.mem) 0 (s.slabList i) (slabs i)) ∧
      kheapReclaim s = some s' ∧ Reclaimed (Bitmap.test pmm₀.bitmap) slabs live env s s' := by
  obtain ⟨hcounted, hkernel⟩ := Pmm.pmmInit_counted hinit
  obtain ⟨slabs, free, hs, hoccupied⟩ :=
    run_inv hkernel (AnyStep.run hrun) ⟨_, _, initKheap_inv hcounted mem, occupied_none _ _⟩
  obtain ⟨s', hreclaim, hexact⟩ := hs.reclaimed hkernel hoccupied
  exact ⟨slabs, s', hs.layout.linked, hreclaim, hexact⟩

/-- After one `kmalloc(100)`. -/
theorem kheapReclaim_exact_first_block :
    ∃ p s, kmalloc (initKheap (fun _ => 0) Pmm.bootState) 100 = some (p, s) ∧
      ∃ slabs s', kheapReclaim s = some s' ∧
        Reclaimed (Bitmap.test Pmm.bootState.bitmap) slabs (grantBlock p 100 []) [] s s' := by
  have hs := initKheap_inv Pmm.bootState_booted.counted fun _ => 0
  obtain ⟨p, s, _, _, hrun, -⟩ :=
    kmalloc_inv Pmm.bootState_booted.kernel hs (show 100 + 4103 < 2 ^ 32 by decide)
  obtain ⟨slabs, s', -, hreclaim, hexact⟩ := kheapReclaim_exact Pmm.pmmInit_no_map
    (Relation.ReflTransGen.single (.step (Step.kmalloc [] [] 100 p (by decide) hrun)))
  exact ⟨p, s, hrun, slabs, s', hreclaim, hexact⟩

end JexOs.Kheap
