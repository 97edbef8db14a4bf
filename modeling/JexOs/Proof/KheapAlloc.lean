import JexOs.Proof.KheapOps

/-!
# The slab heap: allocation

A frame fresh from the memory manager holds none of the heap's bytes, so laying out a slab in it disturbs
nothing.
-/

namespace JexOs.Kheap

open ByteMem Linked List Function

section Build

variable (mem : Mem) {i : Nat} (slab : Nat)

theorem foldl_links {k : Nat} (hi : i < slabCacheCount) (hk : k ≤ objsPerSlab i) :
    let links := (List.range k).foldl (fun m j => store32 m (objAddr slab (objSize i) j)
      (if j = objsPerSlab i - 1 then noIndex else j + 1)) mem
    (∀ a, a < slab + slabHeader ∨ slab + slabPageSize ≤ a → links a = mem a) ∧
      ∀ idx, idx < k → nextFree links slab (objSize i) idx =
        if idx = objsPerSlab i - 1 then noIndex else idx + 1 := by
  have hsize := objSize_pos hi
  have hcount := objsPerSlab_lt hi
  induction k with
  | zero => exact ⟨fun _ _ => rfl, fun idx hidx => absurd hidx (Nat.not_lt_zero idx)⟩
  | succ k ih =>
    obtain ⟨hout, hlinks⟩ := ih (by omega)
    have hbounds := objAddr_bounds (show k < objsPerSlab i by omega) slab
    simp only [range_succ, foldl_append, foldl_cons, foldl_nil]
    refine ⟨fun a ha => ?_, fun idx hidx => ?_⟩
    · rw [← hout a ha]
      rcases ha with ha | ha
      · exact blit_of_lt (by omega)
      · exact blit_of_ge (by omega)
    · by_cases heq : idx = k
      · subst heq
        refine load32_store32 ?_
        unfold noIndex
        split <;> omega
      · have hapart := objAddr_apart slab (objSize i) heq
        unfold nextFree
        rw [load32_store32_of_disjoint (by omega)]
        exact hlinks idx (by omega)

theorem chain_range' {next : Nat → Nat} {stop n : Nat} (hstop : n ≤ stop) :
    ∀ len start, start + len = n → 0 < len →
      (∀ j, start ≤ j → j < n → next j = if j = n - 1 then stop else j + 1) →
      Chain next stop start (List.range' start len) := by
  intro len
  induction len with
  | zero =>
    intro start _ hpos
    exact absurd hpos (lt_irrefl 0)
  | succ len ih =>
    intro start hlen _ hnext
    refine ⟨rfl, by omega, ?_⟩
    rw [hnext start le_rfl (by omega)]
    cases len with
    | zero =>
      rw [if_pos (by omega)]
      rfl
    | succ len =>
      rw [if_neg (by omega)]
      exact ih (start + 1) (by omega) (by omega) fun j hj hjn => hnext j (by omega) hjn

theorem slabOk_new (hi : i < slabCacheCount) (next : Nat) :
    SlabOk (store32 (buildFreeList (writeSlabHeader mem slab i) slab (objSize i) (objsPerSlab i))
      (slab + 4) next) i slab (List.range (objsPerSlab i)) := by
  obtain ⟨hout, hlinks⟩ := foldl_links (writeSlabHeader mem slab i) slab hi le_rfl
  have hcount := objsPerSlab_lt hi
  have hcountPos := objsPerSlab_pos hi
  have hsize := objSize_le hi
  have hword : ∀ k, 8 ≤ k → k + 4 ≤ slabHeader →
      load32 (store32 (buildFreeList (writeSlabHeader mem slab i) slab (objSize i) (objsPerSlab i))
        (slab + 4) next) (slab + k) = load32 (writeSlabHeader mem slab i) (slab + k) := by
    intro k hk hheader
    rw [load32_store32_of_disjoint (by omega)]
    exact load32_congr fun a _ _ => hout a (.inl (by omega))
  have hfree : ∀ idx, idx < objsPerSlab i → nextFree (store32 (buildFreeList
      (writeSlabHeader mem slab i) slab (objSize i) (objsPerSlab i)) (slab + 4) next) slab
      (objSize i) idx = if idx = objsPerSlab i - 1 then noIndex else idx + 1 := by
    intro idx hidx
    have hbounds := objAddr_bounds hidx slab
    rw [← hlinks idx hidx]
    simp only [slabHeader] at hbounds
    exact load32_store32_of_disjoint (by omega)
  exact
    { magic := by
        unfold magicOf
        rw [load32_store32_of_disjoint (by omega)]
        have hsame : load32 (buildFreeList (writeSlabHeader mem slab i) slab (objSize i)
            (objsPerSlab i)) slab = load32 (writeSlabHeader mem slab i) slab :=
          load32_congr fun a _ _ => hout a (.inl (by simp only [slabHeader]; omega))
        rw [hsame]
        unfold writeSlabHeader
        rw [load32_store32_of_disjoint (by omega), load32_store32_of_disjoint (by omega),
          load32_store32_of_disjoint (by omega), load32_store32_of_disjoint (by omega),
          load32_store32_of_disjoint (by omega), load32_store32 (by decide)]
      size := by
        refine (hword 8 le_rfl (by decide)).trans ?_
        unfold writeSlabHeader
        rw [load32_store32_of_disjoint (by omega), load32_store32_of_disjoint (by omega),
          load32_store32_of_disjoint (by omega), load32_store32 (by omega)]
      count := by
        refine (hword 12 (by omega) (by decide)).trans ?_
        unfold writeSlabHeader
        rw [load32_store32_of_disjoint (by omega), load32_store32_of_disjoint (by omega),
          load32_store32 (by omega)]
      freeCount := by
        refine (hword 16 (by omega) (by decide)).trans ?_
        unfold writeSlabHeader
        rw [load32_store32_of_disjoint (by omega), load32_store32 (by omega), length_range]
      chain := by
        have hhead : freeHeadOf (store32 (buildFreeList (writeSlabHeader mem slab i) slab
            (objSize i) (objsPerSlab i)) (slab + 4) next) slab = 0 := by
          refine (hword 20 (by omega) (by decide)).trans ?_
          exact load32_store32 (by omega)
        rw [hhead, range_eq_range']
        exact chain_range' (by simp only [noIndex]; omega) _ 0 (Nat.zero_add _) hcountPos
          fun j _ hj => hfree j hj
      nodup := nodup_range
      bound := fun idx hidx => mem_range.mp hidx }

theorem slab_new_outside (hi : i < slabCacheCount) (next : Nat) {a : Nat}
    (ha : a < slab ∨ slab + slabPageSize ≤ a) :
    store32 (buildFreeList (writeSlabHeader mem slab i) slab (objSize i) (objsPerSlab i))
      (slab + 4) next a = mem a := by
  obtain ⟨hout, -⟩ := foldl_links (writeSlabHeader mem slab i) slab hi le_rfl
  have hpage : slabPageSize = 4096 := rfl
  rw [store32_outside (b := slab) (by omega) (by omega) ha]
  refine (hout a (by simp only [slabHeader]; omega)).trans ?_
  unfold writeSlabHeader
  rw [store32_outside (b := slab) (by omega) (by omega) ha,
    store32_outside (b := slab) (by omega) (by omega) ha,
    store32_outside (b := slab) (by omega) (by omega) ha,
    store32_outside (b := slab) (by omega) (by omega) ha,
    store32_outside (b := slab) (by omega) (by omega) ha,
    store32_outside (b := slab) (by omega) (by omega) ha]

end Build

theorem allSlabs_update_perm {slabs : Nat → List Nat} {i b : Nat} {rest : List Nat}
    (hi : i < slabCacheCount) (hperm : (slabs i).Perm (b :: rest)) :
    (allSlabs slabs).Perm (b :: allSlabs (Function.update slabs i rest)) := by
  have hgen : ∀ caches : List Nat, caches.Nodup → i ∈ caches →
      (caches.flatMap slabs).Perm (b :: caches.flatMap (Function.update slabs i rest)) := by
    intro caches
    induction caches with
    | nil => simp
    | cons j caches ih =>
      intro hnodup hmem
      obtain ⟨hj, hrest⟩ := nodup_cons.mp hnodup
      rw [flatMap_cons, flatMap_cons]
      by_cases heq : j = i
      · subst heq
        have hsame : caches.flatMap (Function.update slabs j rest) = caches.flatMap slabs :=
          flatMap_congr fun k hk => by
            have hne : k ≠ j := fun heq => hj (heq ▸ hk)
            rw [update_of_ne hne]
        rw [update_self, hsame]
        exact hperm.append_right _
      · rw [update_of_ne heq]
        have htail := ih hrest ((mem_cons.mp hmem).resolve_left (Ne.symm heq))
        exact (htail.append_left _).trans perm_middle
  exact hgen _ nodup_range (mem_range.mpr hi)

section Take

variable {reserved : Nat → Bool} {s : State} {live : List Block} {env : List Pmm.Alloc}
  {slabs : Nat → List Nat} {free : Nat → List Nat}

variable (hs : Inv reserved s live env slabs free)

include hs

theorem Inv.heapData_outside {pmm : Pmm.State} {p n : Nat}
    (hpmm : Pmm.Inv reserved pmm (⟨p / Pmm.blockSize, n⟩ :: (owned slabs live ++ env)))
    (halign : p % Pmm.blockSize = 0) {a : Nat} (ha : HeapData slabs free live a) :
    a < p ∨ p + n * slabPageSize ≤ a := by
  obtain ⟨alloc, halloc, hcovers⟩ := (hs.heapFrame_iff _).mp (hs.heapData_frame ha)
  have hdisj := (pairwise_cons.mp hpmm.apart).1 alloc (mem_append_left env halloc) (a / slabPageSize)
  simp only [Pmm.Alloc.Covers, Pmm.blockSize, slabPageSize] at *
  omega

theorem Inv.notMem_allSlabs {pmm : Pmm.State} {p n : Nat}
    (hpmm : Pmm.Inv reserved pmm (⟨p / Pmm.blockSize, n⟩ :: (owned slabs live ++ env)))
    (halign : p % Pmm.blockSize = 0) (hn : 0 < n) {b : Nat} (hb : b ∈ allSlabs slabs) : b ≠ p := by
  obtain ⟨i, hi, hbi⟩ := mem_flatMap.mp hb
  have hout := hs.heapData_outside hpmm halign
    (.inl ⟨i, mem_range.mp hi, b, hbi, .inl ⟨le_rfl, by simp only [slabHeader]; omega⟩⟩)
  simp only [slabPageSize] at hout
  omega

theorem Inv.addSlab {i p : Nat} {pmm : Pmm.State}
    (hi : i < slabCacheCount) (hp : p ≠ 0) (halign : p % Pmm.blockSize = 0)
    (hpmm : Pmm.Inv reserved pmm (⟨p / Pmm.blockSize, 1⟩ :: (owned slabs live ++ env))) : Inv reserved
      { mem := store32 (buildFreeList (writeSlabHeader s.mem p i) p (objSize i) (objsPerSlab i))
          (p + 4) (s.slabList i)
        pmm := pmm
        slabList := Function.update s.slabList i p
        totalCommitted := s.totalCommitted + slabPageSize }
      live env (Function.update slabs i (p :: slabs i))
      (Function.update free p (List.range (objsPerSlab i))) := by
  generalize hmem : store32 (buildFreeList (writeSlabHeader s.mem p i) p (objSize i)
    (objsPerSlab i)) (p + 4) (s.slabList i) = mem'
  have hslab : SlabOk mem' i p (List.range (objsPerSlab i)) := hmem ▸ slabOk_new s.mem p hi _
  have hlayout : Layout mem' s.slabList slabs free live := by
    refine hs.layout.congr fun a ha => ?_
    have hout := hs.heapData_outside hpmm halign ha
    exact hmem ▸ slab_new_outside s.mem p hi _ hout
  have hnew : ∀ b ∈ allSlabs slabs, b ≠ p := fun b hb =>
    hs.notMem_allSlabs hpmm halign Nat.one_pos hb
  have hslabs : (allSlabs (Function.update slabs i (p :: slabs i))).Perm
      (p :: allSlabs slabs) := by
    have hperm : (allSlabs (Function.update slabs i (p :: slabs i))).Perm
        (p :: allSlabs (Function.update (Function.update slabs i (p :: slabs i)) i (slabs i))) :=
      allSlabs_update_perm hi (by rw [update_self])
    rwa [update_idem, update_eq_self] at hperm
  have howned : (owned (Function.update slabs i (p :: slabs i)) live).Perm
      (slabAlloc₁ p :: owned slabs live) := (hslabs.map slabAlloc₁).append_right _
  have hmono : ∀ j, ∀ b ∈ slabs j, b ∈ Function.update slabs i (p :: slabs i) j := by
    intro j b hb
    by_cases heq : j = i
    · subst heq
      rw [update_self]
      exact mem_cons_of_mem p hb
    · rwa [update_of_ne heq]
  exact
    { pmm := hpmm.perm (howned.append_right env).symm
      committed := by
        have hsum := (howned.map (·.count)).sum_eq
        rw [map_cons, sum_cons] at hsum
        have hold := hs.committed
        simp only [slabAlloc₁, slabPageSize] at *
        omega
      aligned := fun b hb => by
        rcases mem_cons.mp (hslabs.mem_iff.mp hb) with rfl | hb
        · exact halign
        · exact hs.aligned b hb
      layout :=
        { linked := fun j hj => by
            by_cases heq : j = i
            · subst heq
              simp only [update_self]
              refine ⟨rfl, hp, ?_⟩
              have hnext : nextOf mem' p = s.slabList j := by
                rw [← hmem]
                refine load32_store32 ?_
                rw [(hs.layout.linked j hj).head_eq]
                cases hlist : slabs j with
                | nil => decide
                | cons b rest =>
                  have hb : b ∈ slabs j := by rw [hlist]; exact mem_cons_self
                  have hbelow := hs.pmm.below (slabAlloc₁ b) (mem_append_left env
                    (mem_append_left _ (mem_map_of_mem (mem_allSlabs hj hb))))
                  have htotal : Pmm.totalBlocks = 32768 := by decide
                  simp only [slabAlloc₁, Pmm.blockSize, headD_cons] at *
                  omega
              rw [hnext]
              exact hlayout.linked j hj
            · simp only [update_of_ne heq]
              exact hlayout.linked j hj
          slab := fun j hj b hb => by
            by_cases hbp : b = p
            · subst hbp
              have hji : j = i := by
                by_contra heq
                rw [update_of_ne heq] at hb
                exact hnew b (mem_allSlabs hj hb) rfl
              subst hji
              rw [update_self]
              exact hslab
            · rw [update_of_ne hbp]
              refine hlayout.slab j hj b ?_
              by_cases heq : j = i
              · subst heq
                rw [update_self] at hb
                exact (mem_cons.mp hb).resolve_left hbp
              · rwa [update_of_ne heq] at hb
          large := hlayout.large }
      small := fun blk hblk hsmall => by
        obtain ⟨hpos, b, hb, idx, hidx, hfree, hptr⟩ := hs.small blk hblk hsmall
        refine ⟨hpos, b, hmono _ b hb, idx, hidx, ?_, hptr⟩
        rwa [update_of_ne (hnew b (mem_allSlabs (sizeClass_lt _) hb))]
      distinct := hs.distinct }

theorem Inv.addLarge {size p : Nat} {pmm : Pmm.State} (hsize : slabMaxSize < size)
    (hwrap : size + 4103 < 2 ^ 32) (halign : p % Pmm.blockSize = 0) (hpmm : Pmm.Inv reserved pmm
      (⟨p / Pmm.blockSize, largePages size⟩ :: (owned slabs live ++ env))) : Inv reserved
      { s with
        mem := store32 (store32 s.mem p largeMagic) (p + 4) (largePages size)
        pmm := pmm
        totalCommitted := s.totalCommitted + largePages size * slabPageSize }
      (⟨p + largeHeader, size⟩ :: live) env slabs free := by
  generalize hmem : store32 (store32 s.mem p largeMagic) (p + 4) (largePages size) = mem'
  have hlarge : Block.Large ⟨p + largeHeader, size⟩ := hsize
  have hpages := largePages_eq hwrap
  have hlayout : Layout mem' s.slabList slabs free live := by
    refine hs.layout.congr fun a ha => ?_
    have hout := hs.heapData_outside hpmm halign ha
    rw [← hmem]
    simp only [slabPageSize] at hout
    unfold store32
    rcases hout with hout | hout
    · rw [blit_of_lt (by omega), blit_of_lt (by omega)]
    · rw [blit_of_ge (by omega), blit_of_ge (by omega)]
  have hhdr : LargeOk mem' ⟨p + largeHeader, size⟩ :=
    { size := hwrap
      offset := by
        simp only [slabPageSize, largeHeader, Pmm.blockSize] at *
        omega
      magic := by
        rw [← hmem, Nat.add_sub_cancel]
        rw [load32_store32_of_disjoint (by omega), load32_store32 (by decide)]
      pages := by
        rw [← hmem, Nat.add_sub_cancel]
        exact load32_store32 (by omega) }
  have hframe : (p + largeHeader) / Pmm.blockSize = p / Pmm.blockSize := by
    simp only [largeHeader, Pmm.blockSize] at *
    omega
  have howned : (owned slabs (⟨p + largeHeader, size⟩ :: live)).Perm
      (⟨p / Pmm.blockSize, largePages size⟩ :: owned slabs live) := by
    unfold owned
    rw [filter_cons_of_pos (by simpa using hlarge), map_cons]
    refine perm_middle.trans ?_
    unfold largeAlloc
    rw [hframe]
  -- every live block's first byte lies outside the new frames
  have hfresh : ∀ blk ∈ live, blk.ptr ≠ p + largeHeader := by
    intro blk hblk heq
    have hpage : HeapFrame reserved s.pmm env (blk.ptr / slabPageSize) := by
      by_cases hblkLarge : blk.Large
      · have hbounds := (hs.layout.large blk hblk hblkLarge).bounds
        exact hs.large_frame hblk hblkLarge (by omega) (by
          simp only [Block.Large] at hblkLarge
          omega)
      · obtain ⟨b, hb, hlow, hhigh⟩ := hs.small_bounds hblk hblkLarge
        have hpos := (hs.small blk hblk hblkLarge).1
        exact hs.slab_page_frame (mem_allSlabs (sizeClass_lt _) hb) (by omega) (by omega)
    obtain ⟨alloc, halloc, hcovers⟩ := (hs.heapFrame_iff _).mp hpage
    refine (pairwise_cons.mp hpmm.apart).1 alloc (mem_append_left env halloc)
      (blk.ptr / slabPageSize) ?_ hcovers
    simp only [Pmm.Alloc.Covers, heq, slabPageSize, largeHeader, Pmm.blockSize] at *
    omega
  exact
    { pmm := hpmm.perm (howned.append_right env).symm
      committed := by
        have hsum := (howned.map (·.count)).sum_eq
        rw [map_cons, sum_cons] at hsum
        have hold := hs.committed
        simp only [slabPageSize] at *
        omega
      aligned := hs.aligned
      layout :=
        { linked := hlayout.linked
          slab := hlayout.slab
          large := forall_mem_cons.mpr ⟨fun _ => hhdr, hlayout.large⟩ }
      small := forall_mem_cons.mpr ⟨fun hsmall => absurd hlarge hsmall, hs.small⟩
      distinct := pairwise_cons.mpr
        ⟨fun blk hblk => (hfresh blk hblk).symm, hs.distinct⟩ }

end Take

end JexOs.Kheap
