import JexOs.Proof.KheapFrame
import Mathlib.Algebra.BigOperators.Group.List.Basic

/-!
# The slab heap: every operation keeps the invariant

Popping and pushing an object change one slab; with frames the invariant follows the memory manager's.
-/

namespace JexOs.Kheap

open ByteMem Linked List Function

theorem store32_outside {mem : Mem} {b a v k : Nat} (hlow : b ≤ a) (hhigh : a + 4 ≤ b + slabPageSize)
    (hk : k < b ∨ b + slabPageSize ≤ k) : store32 mem a v k = mem k := by
  rcases hk with hk | hk
  · exact blit_of_lt (by omega)
  · exact blit_of_ge (by omega)

section Pop

variable {mem : Mem} {i slab idx : Nat} {rest : List Nat}

theorem SlabOk.pop (hi : i < slabCacheCount) (hslab : SlabOk mem i slab (idx :: rest)) :
    let mem₁ := store32 mem (slab + 20) (load32 mem (objAddr slab (objSize i) idx))
    SlabOk (store32 mem₁ (slab + 16) (freeCountOf mem₁ slab - 1)) i slab rest := by
  intro mem₁
  have hcount₁ : freeCountOf mem₁ slab = rest.length + 1 := by
    have hsame : freeCountOf mem₁ slab = freeCountOf mem slab := load32_store32_of_disjoint (by omega)
    rw [hsame, hslab.freeCount, length_cons]
  have hlen : rest.length < 256 := by
    have hnodup := (nodup_cons.mp hslab.nodup).2
    have hsub : rest ⊆ List.range (objsPerSlab i) := fun j hj =>
      mem_range.mpr (hslab.bound j (mem_cons_of_mem idx hj))
    have hle := (subperm_of_subset hnodup hsub).length_le
    have hlt := objsPerSlab_lt hi
    rw [length_range] at hle
    omega
  have hword : ∀ a, a + 4 ≤ slab + 16 ∨ slab + 24 ≤ a →
      load32 (store32 mem₁ (slab + 16) (freeCountOf mem₁ slab - 1)) a = load32 mem a := by
    intro a ha
    rw [load32_store32_of_disjoint (by omega), load32_store32_of_disjoint (by omega)]
  obtain ⟨_, _, hchain⟩ := hslab.chain
  exact
    { magic := (hword slab (by omega)).trans hslab.magic
      size := (hword (slab + 8) (by omega)).trans hslab.size
      count := (hword (slab + 12) (by omega)).trans hslab.count
      freeCount := by
        unfold freeCountOf at hcount₁ ⊢
        rw [load32_store32 (by omega), hcount₁]
        omega
      chain := by
        have hhead : freeHeadOf (store32 mem₁ (slab + 16) (freeCountOf mem₁ slab - 1)) slab =
            nextFree mem slab (objSize i) idx := by
          unfold freeHeadOf
          rw [load32_store32_of_disjoint (by omega), load32_store32 (load32_lt _ _)]
          rfl
        rw [hhead]
        refine hchain.congr fun j hj => hword _ ?_
        have hbounds := objAddr_bounds (hslab.bound j (mem_cons_of_mem idx hj)) slab
        simp only [slabHeader] at hbounds
        omega
      nodup := (nodup_cons.mp hslab.nodup).2
      bound := fun j hj => hslab.bound j (mem_cons_of_mem idx hj) }

end Pop

theorem SlabOk.push {mem : Mem} {i slab idx : Nat} {free : List Nat} (hi : i < slabCacheCount)
    (hslab : SlabOk mem i slab free) (hidx : idx < objsPerSlab i) (hlive : idx ∉ free) :
    let mem₁ := store32 mem (objAddr slab (objSize i) idx) (freeHeadOf mem slab)
    let mem₂ := store32 mem₁ (slab + 20) idx
    SlabOk (store32 mem₂ (slab + 16) (freeCountOf mem₂ slab + 1)) i slab (idx :: free) := by
  intro mem₁ mem₂
  have hobj := objAddr_bounds hidx slab
  have hsize := objSize_pos hi
  have hlt := objsPerSlab_lt hi
  simp only [slabHeader] at hobj
  have hcount₂ : freeCountOf mem₂ slab = free.length := by
    have hsame : freeCountOf mem₂ slab = freeCountOf mem slab := by
      unfold freeCountOf
      rw [load32_store32_of_disjoint (by omega), load32_store32_of_disjoint (by omega)]
    rw [hsame, hslab.freeCount]
  have hlen : free.length < 256 := by
    have hsub : free ⊆ List.range (objsPerSlab i) := fun j hj =>
      mem_range.mpr (hslab.bound j hj)
    have hle := (subperm_of_subset hslab.nodup hsub).length_le
    rw [length_range] at hle
    omega
  have hword : ∀ a, a + 4 ≤ slab + 16 ∨ slab + 24 ≤ a →
      a + 4 ≤ objAddr slab (objSize i) idx ∨ objAddr slab (objSize i) idx + 4 ≤ a →
      load32 (store32 mem₂ (slab + 16) (freeCountOf mem₂ slab + 1)) a = load32 mem a := by
    intro a ha hother
    rw [load32_store32_of_disjoint (by omega), load32_store32_of_disjoint (by omega),
      load32_store32_of_disjoint (by omega)]
  exact
    { magic := (hword slab (by omega) (by omega)).trans hslab.magic
      size := (hword (slab + 8) (by omega) (by omega)).trans hslab.size
      count := (hword (slab + 12) (by omega) (by omega)).trans hslab.count
      freeCount := by
        unfold freeCountOf at hcount₂ ⊢
        rw [load32_store32 (by omega), hcount₂]
        rfl
      chain := by
        refine ⟨?_, by simp only [noIndex]; omega, ?_⟩
        · unfold freeHeadOf
          rw [load32_store32_of_disjoint (by omega), load32_store32 (by omega)]
        · have hlink : nextFree (store32 mem₂ (slab + 16) (freeCountOf mem₂ slab + 1)) slab
              (objSize i) idx = freeHeadOf mem slab := by
            unfold nextFree
            rw [load32_store32_of_disjoint (by omega), load32_store32_of_disjoint (by omega)]
            exact load32_store32 (load32_lt _ _)
          rw [hlink]
          refine hslab.chain.congr fun j hj => ?_
          have hbounds := objAddr_bounds (hslab.bound j hj) slab
          have hne : j ≠ idx := fun heq => hlive (heq ▸ hj)
          have hapart := objAddr_apart slab (objSize i) hne
          simp only [slabHeader] at hbounds
          exact hword _ (by omega) (by omega)
      nodup := nodup_cons.mpr ⟨hlive, hslab.nodup⟩
      bound := forall_mem_cons.mpr ⟨hidx, hslab.bound⟩ }

section Update

variable {reserved : Nat → Bool} {s : State} {live : List Block} {env : List Pmm.Alloc}
  {slabs : Nat → List Nat} {free : Nat → List Nat}

variable {b i idx : Nat} {blk : Block}

variable (hs : Inv reserved s live env slabs free)

include hs

theorem Inv.updateSlab (hi : i < slabCacheCount) (hb : b ∈ slabs i) {mem' : Mem} {free' : List Nat}
    (hout : ∀ a, a < b ∨ b + slabPageSize ≤ a → mem' a = s.mem a)
    (hnext : nextOf mem' b = nextOf s.mem b) (hslab : SlabOk mem' i b free') :
    Layout mem' s.slabList slabs (Function.update free b free') live := by
  have hball := mem_allSlabs hi hb
  have hother : ∀ j, j < slabCacheCount → ∀ b' ∈ slabs j, b' ≠ b →
      ∀ a, b' ≤ a → a < b' + slabPageSize → mem' a = s.mem a := by
    intro j hj b' hb' hne a hlow hhigh
    have hapart := hs.slab_apart (mem_allSlabs hj hb') hball hne
    exact hout a (by omega)
  exact
    { linked := fun j hj => (hs.layout.linked j hj).congr fun b' hb' => by
        by_cases heq : b' = b
        · rw [heq, hnext]
        · refine nextOf_congr fun a hlow hhigh => hother j hj b' hb' heq a hlow ?_
          simp only [slabHeader, slabPageSize] at *
          omega
      slab := fun j hj b' hb' => by
        by_cases heq : b' = b
        · subst heq
          obtain rfl := hs.cache_unique hi hj hb hb'
          rw [update_self]
          exact hslab
        · rw [update_of_ne heq]
          have hold := hs.layout.slab j hj b' hb'
          refine hold.congr fun a ha => ?_
          have hpage := hold.page hj ha
          exact hother j hj b' hb' heq a hpage.1 hpage.2
      large := fun blk hblk hlarge => by
        have hold := hs.layout.large blk hblk hlarge
        refine hold.congr fun a hlow hhigh => ?_
        have hapart := hs.slab_large_apart hball hblk hlarge
        have hbounds := hold.bounds
        exact hout a (by omega) }

omit hs in
theorem owned_cons_small (hsmall : ¬ blk.Large) : owned slabs (blk :: live) = owned slabs live := by
  unfold owned
  rw [filter_cons_of_neg (by simpa using hsmall)]

omit hs in
theorem owned_erase_small (hsmall : ¬ blk.Large) : owned slabs (live.erase blk) = owned slabs live := by
  unfold owned
  congr 2
  induction live with
  | nil => rfl
  | cons x rest ih =>
    by_cases heq : x = blk
    · subst heq
      rw [erase_cons_head, filter_cons_of_neg (by simpa using hsmall)]
    · rw [erase_cons_tail (by simpa using heq), filter_cons, filter_cons, ih]

theorem slabPop_inv {size : Nat} {rest : List Nat}
    (hpos : 0 < size) (hsize : size ≤ slabMaxSize) (hb : b ∈ slabs (sizeClass size))
    (hfree : free b = idx :: rest) :
    Inv reserved (slabPop s b).2 (⟨(slabPop s b).1, size⟩ :: live) env slabs
      (Function.update free b rest) := by
  have hi := sizeClass_lt size
  have hslab := hs.layout.slab _ hi b hb
  rw [hfree] at hslab
  have hidx : idx < objsPerSlab (sizeClass size) := hslab.bound idx mem_cons_self
  have hhead : freeHeadOf s.mem b = idx := hslab.chain.1
  have hsmall : ¬ Block.Large ⟨(slabPop s b).1, size⟩ := not_lt.mpr hsize
  have hptr : (slabPop s b).1 = objAddr b (objSize (sizeClass size)) idx := by
    simp only [slabPop, hslab.size, hhead]
  have hmem : (slabPop s b).2.mem =
      store32 (store32 s.mem (b + 20) (load32 s.mem (objAddr b (objSize (sizeClass size)) idx)))
        (b + 16) (freeCountOf (store32 s.mem (b + 20)
          (load32 s.mem (objAddr b (objSize (sizeClass size)) idx))) b - 1) := by
    simp only [slabPop, hslab.size, hhead]
  have hlayout : Layout (slabPop s b).2.mem s.slabList slabs
      (Function.update free b rest) live := by
    rw [hmem]
    refine hs.updateSlab hi hb (fun a ha => ?_) ?_ (hslab.pop hi)
    · rw [store32_outside (b := b) (by omega) (by simp only [slabPageSize]; omega) ha,
        store32_outside (b := b) (by omega) (by simp only [slabPageSize]; omega) ha]
    · unfold nextOf
      rw [load32_store32_of_disjoint (by omega), load32_store32_of_disjoint (by omega)]
  have hnodup := nodup_cons.mp hslab.nodup
  have hfresh : ∀ blk ∈ live, blk.ptr ≠ objAddr b (objSize (sizeClass size)) idx := by
    intro blk hblk heq
    have hdata : SlabData (sizeClass size) b (free b) (objAddr b (objSize (sizeClass size)) idx) :=
      .inr ⟨idx, by simp [hfree], le_rfl, by omega⟩
    refine hs.slabData_not_payload hi hb hdata hblk ⟨heq.le, ?_⟩
    have hblkpos : 0 < blk.size := by
      by_cases hlarge : blk.Large
      · exact lt_of_le_of_lt (Nat.zero_le _) hlarge
      · exact (hs.small blk hblk hlarge).1
    omega
  exact
    { pmm := by
        rw [owned_cons_small hsmall]
        exact hs.pmm
      committed := by
        rw [owned_cons_small hsmall]
        exact hs.committed
      aligned := hs.aligned
      layout :=
        { linked := hlayout.linked
          slab := hlayout.slab
          large := forall_mem_cons.mpr
            ⟨fun hlarge => absurd hlarge hsmall, hlayout.large⟩ }
      small := forall_mem_cons.mpr
        ⟨fun _ => ⟨hpos, b, hb, idx, hidx, by rw [update_self]; exact hnodup.1, hptr⟩,
          fun blk hblk hblkSmall => by
            obtain ⟨hblkPos, b', hb', idx', hidx', hfree', hptr'⟩ := hs.small blk hblk hblkSmall
            refine ⟨hblkPos, b', hb', idx', hidx', ?_, hptr'⟩
            by_cases heq : b' = b
            · subst heq
              rw [update_self]
              exact fun hmem => hfree' (hfree ▸ mem_cons_of_mem idx hmem)
            · rwa [update_of_ne heq]⟩
      distinct := pairwise_cons.mpr
        ⟨fun blk hblk heq => hfresh blk hblk (heq.symm.trans hptr), hs.distinct⟩ }

theorem Inv.erase_ptr_ne {x : Block} (hblk : blk ∈ live) (hx : x ∈ live.erase blk) : x.ptr ≠ blk.ptr := by
  have hpair := ((perm_cons_erase hblk).pairwise_iff
    (R := fun x y : Block => x.ptr ≠ y.ptr) fun {_ _} h => h.symm).mp hs.distinct
  exact ((pairwise_cons.mp hpair).1 x hx).symm

omit hs in
theorem pageOf_eq {ptr : Nat} (halign : b % slabPageSize = 0) (hlow : b ≤ ptr)
    (hhigh : ptr < b + slabPageSize) : pageOf ptr = b := by
  unfold pageOf
  simp only [slabPageSize] at *
  omega

theorem Inv.object_unique {j c k : Nat}
    (hi : i < slabCacheCount) (hj : j < slabCacheCount) (hb : b ∈ slabs i) (hc : c ∈ slabs j)
    (hidx : idx < objsPerSlab i) (hk : k < objsPerSlab j)
    (heq : objAddr b (objSize i) idx = objAddr c (objSize j) k) : b = c ∧ idx = k := by
  have hbounds := objAddr_bounds hidx b
  have hbounds' := objAddr_bounds hk c
  have hsize := objSize_pos hi
  have hsize' := objSize_pos hj
  have hpage : pageOf (objAddr b (objSize i) idx) = b :=
    pageOf_eq (hs.aligned b (mem_allSlabs hi hb)) (by omega) (by omega)
  have hpage' : pageOf (objAddr c (objSize j) k) = c :=
    pageOf_eq (hs.aligned c (mem_allSlabs hj hc)) (by omega) (by omega)
  rw [heq, hpage'] at hpage
  subst hpage
  obtain rfl := hs.cache_unique hi hj hb hc
  refine ⟨rfl, by_contra fun hne => ?_⟩
  have hapart := objAddr_apart c (objSize i) hne
  omega

def Occupied (slabs : Nat → List Nat) (free : Nat → List Nat) (live : List Block) : Prop :=
  ∀ i, i < slabCacheCount → ∀ b ∈ slabs i, ∀ idx, idx < objsPerSlab i → idx ∉ free b →
    ∃ blk ∈ live, ¬blk.Large ∧ blk.ptr = objAddr b (objSize i) idx

omit hs in
theorem Occupied.cons (h : Occupied slabs free live) (blk : Block) : Occupied slabs free (blk :: live) := by
  intro i hi b hb idx hidx hnot
  obtain ⟨x, hx, hrest⟩ := h i hi b hb idx hidx hnot
  exact ⟨x, mem_cons_of_mem _ hx, hrest⟩

omit hs in
theorem Occupied.subset {slabs' : Nat → List Nat} (h : Occupied slabs free live)
    (hsub : ∀ i, i < slabCacheCount → ∀ b ∈ slabs' i, b ∈ slabs i) : Occupied slabs' free live :=
  fun i hi b hb => h i hi b (hsub i hi b hb)

omit hs in
theorem Occupied.addSlab (h : Occupied slabs free live) {p : Nat} (hnew : ∀ b ∈ allSlabs slabs, b ≠ p) :
    Occupied (Function.update slabs i (p :: slabs i))
      (Function.update free p (List.range (objsPerSlab i))) live := by
  intro j hj c hc k hk hnot
  have hold : c ∈ slabs j → ∃ blk ∈ live, ¬blk.Large ∧ blk.ptr = objAddr c (objSize j) k := fun hc => by
    rw [update_of_ne (hnew c (mem_allSlabs hj hc))] at hnot
    exact h j hj c hc k hk hnot
  by_cases heq : j = i
  · subst heq
    rw [update_self] at hc
    rcases mem_cons.mp hc with rfl | hc
    · rw [update_self, mem_range] at hnot
      exact absurd hk hnot
    · exact hold hc
  · rw [update_of_ne heq] at hc
    exact hold hc

omit hs in
theorem Occupied.pop (h : Occupied slabs free live) (hs : Inv reserved s live env slabs free)
    {rest : List Nat} (hi : i < slabCacheCount) (hb : b ∈ slabs i) (hfree : free b = idx :: rest)
    (hsmall : ¬ blk.Large) (hptr : blk.ptr = objAddr b (objSize i) idx) :
    Occupied slabs (Function.update free b rest) (blk :: live) := by
  intro j hj c hc k hk hnot
  by_cases heq : c = b
  · subst heq
    obtain rfl := hs.cache_unique hi hj hb hc
    rw [update_self] at hnot
    by_cases hsame : k = idx
    · exact ⟨blk, mem_cons_self, hsmall, by rw [hptr, hsame]⟩
    · refine h.cons blk i hi c hc k hk ?_
      rw [hfree]
      exact not_mem_cons_of_ne_of_not_mem hsame hnot
  · rw [update_of_ne heq] at hnot
    exact h.cons blk j hj c hc k hk hnot

omit hs in
theorem Occupied.push (h : Occupied slabs free live) (hs : Inv reserved s live env slabs free)
    (hi : i < slabCacheCount) (hb : b ∈ slabs i) (hidx : idx < objsPerSlab i)
    (hptr : blk.ptr = objAddr b (objSize i) idx) :
    Occupied slabs (Function.update free b (idx :: free b)) (live.erase blk) := by
  intro j hj c hc k hk hnot
  have hold : k ∉ free c ∧ ¬(b = c ∧ idx = k) := by
    by_cases heq : c = b
    · subst heq
      rw [update_self, mem_cons, not_or] at hnot
      exact ⟨hnot.2, fun hsame => hnot.1 hsame.2.symm⟩
    · rw [update_of_ne heq] at hnot
      exact ⟨hnot, fun hsame => heq hsame.1.symm⟩
  obtain ⟨x, hx, hxsmall, hxptr⟩ := h j hj c hc k hk hold.1
  refine ⟨x, (mem_erase_of_ne fun heq => ?_).mpr hx, hxsmall, hxptr⟩
  subst heq
  exact hold.2 (hs.object_unique hi hj hb hc hidx hk (hptr.symm.trans hxptr))

theorem Inv.kfree_small (hblk : blk ∈ live) (hsmall : ¬ blk.Large) (pmm : Pmm.State) :
    kfree { s with pmm := pmm } blk.ptr =
      slabFree { s with pmm := pmm } (pageOf blk.ptr) blk.ptr := by
  obtain ⟨-, b, hb, idx, hidx, -, hptr⟩ := hs.small blk hblk hsmall
  have hi := sizeClass_lt blk.size
  have hsize := objSize_pos hi
  have hobj := objAddr_bounds hidx b
  have hpage : pageOf blk.ptr = b := pageOf_eq (hs.aligned b (mem_allSlabs hi hb)) (by omega) (by omega)
  have hne : blk.ptr ≠ 0 := by
    simp only [slabHeader] at hobj
    omega
  unfold kfree
  rw [if_neg hne]
  simp only [hpage]
  rw [if_pos (hs.layout.slab _ hi b hb).magic]

theorem kfree_small_inv (hblk : blk ∈ live) (hsmall : ¬ blk.Large) :
    ∃ free', Inv reserved (kfree s blk.ptr) (live.erase blk) env slabs free' ∧
      (Occupied slabs free live → Occupied slabs free' (live.erase blk)) := by
  obtain ⟨hpos, b, hb, idx, hidx, hnot, hptr⟩ := hs.small blk hblk hsmall
  have hi := sizeClass_lt blk.size
  generalize hclass : sizeClass blk.size = i at *
  have hball := mem_allSlabs hi hb
  have hslab := hs.layout.slab i hi b hb
  have hsize := objSize_pos hi
  have hobj := objAddr_bounds hidx b
  have hpage : pageOf blk.ptr = b := pageOf_eq (hs.aligned b hball) (by omega) (by omega)
  have hindex : (blk.ptr - (b + slabHeader)) / objSize i = idx := by
    rw [hptr]
    unfold objAddr
    rw [Nat.add_sub_cancel_left, Nat.mul_div_cancel idx (by omega)]
  have hkfree : kfree s blk.ptr = slabFree s b blk.ptr := hpage ▸ hs.kfree_small hblk hsmall s.pmm
  have hlayout : Layout (slabFree s b blk.ptr).mem s.slabList slabs
      (Function.update free b (idx :: free b)) live := by
    simp only [slabFree, hslab.size, hindex]
    simp only [slabHeader] at hobj
    refine hs.updateSlab hi hb (fun a ha => ?_) ?_ (hslab.push hi hidx hnot)
    · rw [store32_outside (b := b) (by omega) (by simp only [slabPageSize]; omega) ha,
        store32_outside (b := b) (by omega) (by simp only [slabPageSize]; omega) ha,
        store32_outside (b := b) (by omega) (by omega) ha]
    · unfold nextOf
      rw [load32_store32_of_disjoint (by omega), load32_store32_of_disjoint (by omega),
        load32_store32_of_disjoint (by omega)]
  have hsub : ∀ x ∈ live.erase blk, x ∈ live := fun x hx => mem_of_mem_erase hx
  rw [hkfree]
  exact ⟨Function.update free b (idx :: free b),
    { pmm := by
        rw [owned_erase_small hsmall]
        exact hs.pmm
      committed := by
        rw [owned_erase_small hsmall]
        exact hs.committed
      aligned := hs.aligned
      layout :=
        { linked := hlayout.linked
          slab := hlayout.slab
          large := fun x hx => hlayout.large x (hsub x hx) }
      small := fun x hx hxSmall => by
        obtain ⟨hxPos, b', hb', idx', hidx', hfree', hptr'⟩ := hs.small x (hsub x hx) hxSmall
        refine ⟨hxPos, b', hb', idx', hidx', ?_, hptr'⟩
        by_cases heq : b' = b
        · subst heq
          obtain rfl := hs.cache_unique hi (sizeClass_lt x.size) hb hb'
          rw [update_self]
          refine not_mem_cons_of_ne_of_not_mem (fun hsame => ?_) hfree'
          exact hs.erase_ptr_ne hblk hx (by rw [hptr', hptr, hsame])
        · rwa [update_of_ne heq]
      distinct := hs.distinct.sublist erase_sublist },
    fun hoccupied => hoccupied.push hs hi hb hidx hptr⟩

omit hs in
theorem owned_perm_large (hblk : blk ∈ live) (hlarge : blk.Large) :
    (owned slabs live).Perm (largeAlloc blk :: owned slabs (live.erase blk)) := by
  have hfilter := (perm_cons_erase hblk).filter (·.Large)
  rw [filter_cons_of_pos (by simpa using hlarge)] at hfilter
  exact ((hfilter.map largeAlloc).append_left _).trans perm_middle

theorem kfree_large_inv (hblk : blk ∈ live)
    (hlarge : blk.Large) : Inv reserved (kfree s blk.ptr) (live.erase blk) env slabs free := by
  have hhdr := hs.layout.large blk hblk hlarge
  have hbounds := hhdr.bounds
  have hpage : pageOf blk.ptr = blk.ptr - largeHeader := by
    unfold pageOf
    rw [hhdr.offset]
  have hne : blk.ptr ≠ 0 := by
    simp only [largeHeader] at hbounds
    omega
  have hmagic : magicOf s.mem (blk.ptr - largeHeader) = largeMagic := hhdr.magic
  have hkfree : kfree s blk.ptr =
      { s with
        pmm := Pmm.pmmFreeBlocks s.pmm (blk.ptr - largeHeader) (largePages blk.size)
        totalCommitted := s.totalCommitted - largePages blk.size * slabPageSize } := by
    unfold kfree
    rw [if_neg hne]
    simp only [hpage, hmagic, hhdr.pages]
    rw [if_neg (by decide), if_pos trivial]
  have hperm : (owned slabs live).Perm (largeAlloc blk :: owned slabs (live.erase blk)) :=
    owned_perm_large hblk hlarge
  have hfree := Pmm.pmmFreeBlocks_perm hs.pmm (hperm.append_right env)
  have hsum := (hperm.map (·.count)).sum_eq
  rw [map_cons, sum_cons] at hsum
  have hsub : ∀ x ∈ live.erase blk, x ∈ live := fun x hx => mem_of_mem_erase hx
  rw [hkfree]
  exact
    { pmm := by
        rw [hbounds.2.1]
        exact hfree
      committed := by
        have hold := hs.committed
        simp only [largeAlloc, slabPageSize] at *
        omega
      aligned := hs.aligned
      layout :=
        { linked := hs.layout.linked
          slab := hs.layout.slab
          large := fun x hx => hs.layout.large x (hsub x hx) }
      small := fun x hx => hs.small x (hsub x hx)
      distinct := hs.distinct.sublist erase_sublist }

end Update

end JexOs.Kheap
