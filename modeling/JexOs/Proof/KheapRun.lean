import JexOs.Proof.KheapAlloc
import Mathlib.Data.Set.Card
import Mathlib.Data.Set.Finite.Lattice
import Mathlib.Order.Interval.Finset.Nat

/-!
# The slab heap over whole runs

A run interleaves the heap's entry points with writes by the owners of live blocks, other users of the memory
manager, and anything at all outside the heap's frames.
-/

namespace JexOs.Kheap

open ByteMem Linked List Function

theorem findSlab_spec {mem : Mem} {nodes : List Nat} {head fuel : Nat}
    (hchain : Chain (nextOf mem) 0 head nodes) (hfuel : nodes.length < fuel) :
    ∃ slab, findSlab mem fuel head = some slab ∧ ((slab = 0 ∧ ∀ b ∈ nodes, freeCountOf mem b = 0) ∨
        slab ≠ 0 ∧ slab ∈ nodes ∧ freeCountOf mem slab ≠ 0) := by
  induction nodes generalizing head fuel with
  | nil =>
    obtain ⟨fuel, rfl⟩ : ∃ k, fuel = k + 1 := ⟨fuel - 1, by rw [length_nil] at hfuel; omega⟩
    have hhead : head = 0 := hchain
    exact ⟨0, by simp [findSlab, hhead], .inl ⟨rfl, by simp⟩⟩
  | cons b nodes ih =>
    obtain ⟨fuel', rfl⟩ : ∃ k, fuel = k + 1 := ⟨fuel - 1, by omega⟩
    obtain ⟨rfl, hne, hrest⟩ := hchain
    rw [findSlab]
    by_cases hempty : freeCountOf mem head = 0
    · rw [if_pos ⟨hne, hempty⟩]
      obtain ⟨slab, hfind, hslab⟩ := ih hrest (Nat.lt_of_succ_lt_succ hfuel)
      refine ⟨slab, hfind, ?_⟩
      rcases hslab with ⟨hzero, hall⟩ | ⟨hslabNe, hmem, hfree⟩
      · exact .inl ⟨hzero, forall_mem_cons.mpr ⟨hempty, hall⟩⟩
      · exact .inr ⟨hslabNe, mem_cons_of_mem head hmem, hfree⟩
    · rw [if_neg fun h => hempty h.2]
      exact ⟨head, rfl, .inr ⟨hne, mem_cons_self, hempty⟩⟩

section Sizes

variable {size : Nat}

theorem largePages_wrapped (hwraps : 2 ^ 32 ≤ size + 4103) (hsize : size ≤ 2 ^ 32 - 8) :
    largePages size = 0 := by
  unfold largePages largeHeader slabPageSize
  omega

theorem largePages_short (hsize : 2 ^ 32 - 7 ≤ size) (hlt : size < 2 ^ 32) : largePages size = 1 := by
  unfold largePages largeHeader slabPageSize
  omega

theorem kmalloc_wrapped {s : State} (hwraps : 2 ^ 32 ≤ size + 4103) (hsize : size ≤ 2 ^ 32 - 8) :
    kmalloc s size = some (0, s) := by
  have hnone : Pmm.pmmAllocBlocks s.pmm 0 = (0, s.pmm) := by
    unfold Pmm.pmmAllocBlocks
    split
    · rfl
    · rfl
  have hmax : slabMaxSize = 2048 := rfl
  unfold kmalloc
  rw [if_neg (show ¬size = 0 by omega), if_pos (show size > slabMaxSize by omega),
    largePages_wrapped hwraps hsize]
  dsimp only
  rw [hnone]
  rfl

/-- The bytes that belong to a block for which `size` were asked: one page less the header when the sum with the
header wraps. -/
def extent (size : Nat) : Nat := if size + 4103 < 2 ^ 32 then size else slabPageSize - largeHeader

theorem kmalloc_extent (s : State) (hsize : 2 ^ 32 - 7 ≤ size) (hlt : size < 2 ^ 32) :
    kmalloc s size = kmalloc s (extent size) := by
  have hextent : extent size = 4088 := if_neg (show ¬size + 4103 < 2 ^ 32 by omega)
  have hmax : slabMaxSize = 2048 := rfl
  unfold kmalloc
  rw [hextent, if_neg (show ¬size = 0 by omega), if_pos (show size > slabMaxSize by omega),
    if_neg (show ¬4088 = 0 by decide), if_pos (show 4088 > slabMaxSize by decide),
    largePages_short hsize hlt, show largePages 4088 = 1 by decide]

end Sizes

section Ops

variable {reserved : Nat → Bool} {s : State} {live : List Block} {env : List Pmm.Alloc}
  {slabs : Nat → List Nat} {free : Nat → List Nat}

theorem Inv.length_le (hs : Inv reserved s live env slabs free) {i : Nat}
    (hi : i < slabCacheCount) : (slabs i).length ≤ Pmm.totalBlocks := by
  have hnodup : ((slabs i).map (· / Pmm.blockSize)).Nodup := by
    refine (nodup_map_iff_inj_on (hs.nodup hi)).mpr fun x hx y hy heq => ?_
    have hxa := hs.aligned x (mem_allSlabs hi hx)
    have hya := hs.aligned y (mem_allSlabs hi hy)
    simp only [slabPageSize, Pmm.blockSize] at *
    omega
  have hsub : (slabs i).map (· / Pmm.blockSize) ⊆ List.range Pmm.totalBlocks := by
    intro f hf
    obtain ⟨b, hb, rfl⟩ := mem_map.mp hf
    have hbelow := hs.pmm.below (slabAlloc₁ b) (mem_append_left env
      (mem_append_left _ (mem_map_of_mem (mem_allSlabs hi hb))))
    exact mem_range.mpr hbelow
  have hle := (subperm_of_subset hnodup hsub).length_le
  rwa [length_map, length_range] at hle

def grantBlock (p size : Nat) (live : List Block) : List Block :=
  if p = 0 then live else ⟨p, size⟩ :: live

theorem slabPop_grant (hs : Inv reserved s live env slabs free) {size b : Nat}
    (hpos : 0 < size) (hsize : size ≤ slabMaxSize) (hb : b ∈ slabs (sizeClass size))
    (hfree : 0 < (free b).length) :
    (slabPop s b).1 ≠ 0 ∧ ∃ free',
    Inv reserved (slabPop s b).2 (grantBlock (slabPop s b).1 size live) env slabs free' ∧
        (Occupied slabs free live → Occupied slabs free' (grantBlock (slabPop s b).1 size live)) := by
  obtain ⟨idx, rest, hcons⟩ := exists_cons_of_length_pos hfree
  have hne : (slabPop s b).1 ≠ 0 := by
    simp only [slabPop, objAddr, slabHeader]
    omega
  refine ⟨hne, Function.update free b rest, ?_⟩
  unfold grantBlock
  rw [if_neg hne]
  refine ⟨slabPop_inv hs hpos hsize hb hcons, fun hoccupied => ?_⟩
  have hslab := hs.layout.slab _ (sizeClass_lt size) b hb
  rw [hcons] at hslab
  refine hoccupied.pop hs (sizeClass_lt size) hb hcons (not_lt.mpr hsize) ?_
  simp only [slabPop, hslab.size, hslab.chain.1]

variable (hkernel : ∀ f, f < Pmm.kernelPages → reserved f = true)

include hkernel

theorem slabAlloc_inv (hs : Inv reserved s live env slabs free) {size : Nat} (hpos : 0 < size)
    (hsize : size ≤ slabMaxSize) : ∃ p s' slabs' free', slabAlloc s (sizeClass size) = some (p, s') ∧
      Inv reserved s' (grantBlock p size live) env slabs' free' ∧
      (Occupied slabs free live → Occupied slabs' free' (grantBlock p size live)) ∧
      (p = 0 → (∀ b ∈ slabs (sizeClass size), freeCountOf s.mem b = 0) ∧
        ∀ f, f < Pmm.totalBlocks → Bitmap.test s.pmm.bitmap f = true) := by
  have hi := sizeClass_lt size
  have hlength := hs.length_le hi
  obtain ⟨slab, hfind, hslab⟩ := findSlab_spec (hs.layout.linked _ hi) (show _ < Pmm.totalBlocks + 1 by omega)
  unfold slabAlloc
  rw [hfind]
  rcases hslab with ⟨rfl, hnone⟩ | ⟨hne, hmem, hcount⟩
  · simp only [slabCreate]
    generalize hp : (Pmm.pmmAllocBlocks s.pmm 1).1 = p
    by_cases hnull : p = 0
    · subst hnull
      have hpmm := Pmm.pmmAllocBlocks_inv hkernel hs.pmm 1
      unfold Pmm.grant at hpmm
      rw [if_pos hp] at hpmm
      exact ⟨0, _, slabs, free, rfl, { hs with pmm := hpmm }, id,
        fun _ => ⟨hnone, Pmm.pmmAllocBlocks_one_eq_zero hkernel hs.pmm hp⟩⟩
    · obtain ⟨hpmm, halign⟩ := Pmm.pmmAllocBlocks_ne_zero hkernel hs.pmm (hp ▸ hnull)
      rw [hp] at hpmm halign
      have hadd := hs.addSlab hi hnull halign hpmm
      have hnew : ∀ b ∈ allSlabs slabs, b ≠ p := fun b hb =>
        hs.notMem_allSlabs hpmm halign Nat.one_pos hb
      simp only [if_neg hnull]
      obtain ⟨hne, free', hpop, hoccupied⟩ := slabPop_grant hadd hpos hsize
        (b := p) (by rw [update_self]; exact mem_cons_self)
        (by rw [update_self, length_range]; exact objsPerSlab_pos hi)
      generalize slabPop _ p = popped at hne hpop hoccupied ⊢
      exact ⟨popped.1, popped.2, _, free', rfl, hpop, fun h => hoccupied (h.addSlab hnew),
        fun hzero => absurd hzero hne⟩
  · have hfree : 0 < (free slab).length := by
      rw [← (hs.layout.slab _ hi slab hmem).freeCount]
      omega
    obtain ⟨hobj, free', hpop, hoccupied⟩ := slabPop_grant hs hpos hsize hmem hfree
    refine ⟨(slabPop s slab).1, (slabPop s slab).2, slabs, free', ?_, hpop, hoccupied, fun hzero =>
      absurd hzero hobj⟩
    obtain ⟨k, rfl⟩ : ∃ k, slab = k + 1 := ⟨slab - 1, by omega⟩
    rfl

theorem kmalloc_inv (hs : Inv reserved s live env slabs free) {size : Nat} (hwrap : size + 4103 < 2 ^ 32) :
    ∃ p s' slabs' free', kmalloc s size = some (p, s') ∧
    Inv reserved s' (grantBlock p size live) env slabs' free' ∧
      (Occupied slabs free live → Occupied slabs' free' (grantBlock p size live)) ∧
      (0 < size → size ≤ slabMaxSize → p = 0 → (∀ b ∈ slabs (sizeClass size), freeCountOf s.mem b = 0) ∧
          ∀ f, f < Pmm.totalBlocks → Bitmap.test s.pmm.bitmap f = true) := by
  unfold kmalloc
  by_cases hzero : size = 0
  · rw [if_pos hzero]
    exact ⟨0, s, slabs, free, rfl, hs, id, fun hpos => absurd hzero (by omega)⟩
  rw [if_neg hzero]
  by_cases hlarge : size > slabMaxSize
  · rw [if_pos hlarge]
    simp only
    by_cases hp : (Pmm.pmmAllocBlocks s.pmm (largePages size)).1 = 0
    · rw [if_pos hp]
      have hpmm := Pmm.pmmAllocBlocks_inv hkernel hs.pmm (largePages size)
      unfold Pmm.grant at hpmm
      rw [if_pos hp] at hpmm
      exact ⟨0, _, slabs, free, rfl, { hs with pmm := hpmm }, id, fun _ hle => by omega⟩
    · rw [if_neg hp]
      obtain ⟨hpmm, halign⟩ := Pmm.pmmAllocBlocks_ne_zero hkernel hs.pmm hp
      refine ⟨_, _, slabs, free, rfl, ?_, ?_, fun _ hle => by omega⟩
      · unfold grantBlock
        exact hs.addLarge hlarge hwrap halign hpmm
      · unfold grantBlock
        exact fun hoccupied => hoccupied.cons _
  · rw [if_neg hlarge]
    obtain ⟨p, s', slabs', free', hrun, hinv, hoccupied, hnull⟩ :=
      slabAlloc_inv hkernel hs (Nat.pos_of_ne_zero hzero) (Nat.le_of_not_lt hlarge)
    exact ⟨p, s', slabs', free', hrun, hinv, hoccupied, fun _ _ => hnull⟩

omit hkernel in
theorem kfree_inv (hs : Inv reserved s live env slabs free) {blk : Block} (hblk : blk ∈ live) :
    ∃ free', Inv reserved (kfree s blk.ptr) (live.erase blk) env slabs free' ∧
      (Occupied slabs free live → Occupied slabs free' (live.erase blk)) := by
  by_cases hlarge : blk.Large
  · refine ⟨free, kfree_large_inv hs hblk hlarge, fun hoccupied i hi b hb idx hidx hnot => ?_⟩
    obtain ⟨x, hx, hxsmall, hxptr⟩ := hoccupied i hi b hb idx hidx hnot
    refine ⟨x, (mem_erase_of_ne fun heq => ?_).mpr hx, hxsmall, hxptr⟩
    exact hxsmall (heq ▸ hlarge)
  · exact kfree_small_inv hs hblk hlarge

end Ops

section Reclaim

variable {reserved : Nat → Bool} {s : State} {live : List Block} {env : List Pmm.Alloc}
  {slabs : Nat → List Nat} {free : Nat → List Nat}

variable {i pred b : Nat}

theorem SlabOk.setNext {mem : Mem} {slab : Nat} {idxs : List Nat} (hslab : SlabOk mem i slab idxs)
    (v : Nat) : SlabOk (store32 mem (slab + 4) v) i slab idxs := by
  have hword : ∀ a, a + 4 ≤ slab + 4 ∨ slab + 8 ≤ a →
      load32 (store32 mem (slab + 4) v) a = load32 mem a := fun a ha =>
    load32_store32_of_disjoint (by omega)
  have hhead : freeHeadOf (store32 mem (slab + 4) v) slab = freeHeadOf mem slab := hword _ (by omega)
  exact
    { magic := (hword _ (by omega)).trans hslab.magic
      size := (hword _ (by omega)).trans hslab.size
      count := (hword _ (by omega)).trans hslab.count
      freeCount := (hword _ (by omega)).trans hslab.freeCount
      chain := by
        rw [hhead]
        refine hslab.chain.congr fun idx hidx => hword _ ?_
        have hbounds := objAddr_bounds (hslab.bound idx hidx) slab
        simp only [slabHeader] at hbounds
        omega
      nodup := hslab.nodup
      bound := hslab.bound }

variable (hs : Inv reserved s live env slabs free)

include hs

section

variable (hi : i < slabCacheCount)

include hi

theorem Inv.setNext (hpred : pred ∈ slabs i) (v : Nat) :
    (∀ j, j < slabCacheCount → ∀ b ∈ slabs j, SlabOk (store32 s.mem (pred + 4) v) j b (free b)) ∧
      (∀ blk ∈ live, blk.Large → LargeOk (store32 s.mem (pred + 4) v) blk) ∧ ∀ b ∈ allSlabs slabs, b ≠ pred →
        nextOf (store32 s.mem (pred + 4) v) b = nextOf s.mem b := by
  have hball := mem_allSlabs hi hpred
  have hpage : slabPageSize = 4096 := rfl
  refine ⟨fun j hj b hb => ?_, fun blk hblk hlarge => ?_, fun b hb hne => ?_⟩
  · have hok := hs.layout.slab j hj b hb
    by_cases heq : b = pred
    · subst heq
      exact hok.setNext v
    · refine hok.congr fun a ha => ?_
      have hin := hok.page hj ha
      have hapart := hs.slab_apart (mem_allSlabs hj hb) hball heq
      exact store32_outside (b := pred) (by omega) (by omega) (by omega)
  · have hok := hs.layout.large blk hblk hlarge
    refine hok.congr fun a hlow hhigh => ?_
    have hapart := hs.slab_large_apart hball hblk hlarge
    have hbounds := hok.bounds
    exact store32_outside (b := pred) (by omega) (by omega) (by omega)
  · refine nextOf_congr fun a hlow hhigh => ?_
    have hapart := hs.slab_apart hb hball hne
    simp only [slabHeader] at hhigh
    exact store32_outside (b := pred) (by omega) (by omega) (by omega)

theorem Inv.dropSlab {kept rest : List Nat} (hsplit : slabs i = kept ++ b :: rest)
    (hfull : (free b).length = objsPerSlab i) {mem' : Mem} {slabList' : Nat → Nat}
    (hlayout : Layout mem' slabList' (Function.update slabs i (kept ++ rest)) free live) : Inv reserved
      { mem := mem'
        pmm := Pmm.pmmFreeBlocks s.pmm b 1
        slabList := slabList'
        totalCommitted := s.totalCommitted - slabPageSize }
      live env (Function.update slabs i (kept ++ rest)) free := by
  have hb : b ∈ slabs i := by simp [hsplit]
  have hslabs : (allSlabs slabs).Perm
      (b :: allSlabs (Function.update slabs i (kept ++ rest))) :=
    allSlabs_update_perm hi (hsplit ▸ perm_middle)
  have howned : (owned slabs live).Perm
      (slabAlloc₁ b :: owned (Function.update slabs i (kept ++ rest)) live) :=
    (hslabs.map slabAlloc₁).append_right _
  have haddr : (slabAlloc₁ b).first * Pmm.blockSize = b := by
    have halign := hs.aligned b (mem_allSlabs hi hb)
    simp only [slabAlloc₁, slabPageSize, Pmm.blockSize] at *
    omega
  exact
    { pmm := by
        have hfree := Pmm.pmmFreeBlocks_perm hs.pmm (howned.append_right env)
        rwa [haddr] at hfree
      committed := by
        have hsum := (howned.map (·.count)).sum_eq
        rw [map_cons, sum_cons] at hsum
        have hold := hs.committed
        simp only [slabAlloc₁, slabPageSize] at *
        omega
      aligned := fun c hc => hs.aligned c (hslabs.mem_iff.mpr (mem_cons_of_mem b hc))
      layout := hlayout
      small := fun blk hblk hsmall => by
        obtain ⟨hpos, c, hc, idx, hidx, hfree, hptr⟩ := hs.small blk hblk hsmall
        refine ⟨hpos, c, ?_, idx, hidx, hfree, hptr⟩
        by_cases heq : sizeClass blk.size = i
        · rw [heq] at hc hidx ⊢
          have hcb : c ≠ b := by
            intro hcb
            subst hcb
            exact hfree ((hs.layout.slab i hi c hc).mem_free_of_full hfull hidx)
          rw [hsplit] at hc
          simpa [hcb] using hc
        · rwa [update_of_ne heq]
      distinct := hs.distinct }

theorem Inv.unlinkHead {rest : List Nat} (hsplit : slabs i = b :: rest) :
    Layout s.mem (Function.update s.slabList i (rest.headD 0)) (Function.update slabs i rest) free live := by
  have hchain := hs.layout.linked i hi
  rw [hsplit] at hchain
  exact
    { linked := fun j hj => by
        by_cases heq : j = i
        · subst heq
          simp only [update_self]
          rw [← hchain.2.2.head_eq]
          exact hchain.2.2
        · simp only [update_of_ne heq]
          exact hs.layout.linked j hj
      slab := fun j hj c hc => by
        refine hs.layout.slab j hj c ?_
        by_cases heq : j = i
        · subst heq
          rw [update_self] at hc
          rw [hsplit]
          exact mem_cons_of_mem b hc
        · rwa [update_of_ne heq] at hc
      large := hs.layout.large }

theorem Inv.unlinkAfter {before rest : List Nat} (hsplit : slabs i = before ++ pred :: b :: rest) :
    Layout (store32 s.mem (pred + 4) (rest.headD 0)) s.slabList
      (Function.update slabs i (before ++ pred :: rest)) free live := by
  have hchain := hs.layout.linked i hi
  have hnodup := hs.nodup hi
  have hpred : pred ∈ slabs i := by simp [hsplit]
  obtain ⟨hslab, hlarge, hother⟩ := hs.setNext hi hpred (rest.headD 0)
  rw [hsplit] at hchain hnodup
  have hnext : nextOf s.mem b = rest.headD 0 := by
    have hchain' := hchain
    rw [← singleton_append, ← append_assoc] at hchain'
    exact hchain'.suffix.head_eq
  have hlink : nextOf (store32 s.mem (pred + 4) (rest.headD 0)) pred = nextOf s.mem b := by
    rw [← hnext]
    exact load32_store32 (load32_lt _ _)
  have hmem : ∀ c ∈ before ++ pred :: rest, c ∈ slabs i := by
    intro c hc
    rw [hsplit]
    simp only [mem_append, mem_cons] at hc ⊢
    tauto
  have hapart : ∀ c ∈ before ++ rest, c ≠ pred := by
    rintro c hc rfl
    refine (nodup_cons.mp (nodup_middle.mp hnodup)).1 ?_
    simp only [mem_append, mem_cons] at hc ⊢
    tauto
  exact
    { linked := fun j hj => by
        by_cases heq : j = i
        · subst heq
          rw [update_self]
          refine hchain.unlink hlink fun c hc => ?_
          refine hother c (mem_allSlabs hj (hmem c ?_)) (hapart c hc)
          simp only [mem_append, mem_cons] at hc ⊢
          tauto
        · rw [update_of_ne heq]
          refine (hs.layout.linked j hj).congr fun c hc => ?_
          refine hother c (mem_allSlabs hj hc) ?_
          rintro rfl
          exact heq (hs.cache_unique hj hi hc hpred)
      slab := fun j hj c hc => by
        refine hslab j hj c ?_
        by_cases heq : j = i
        · subst heq
          rw [update_self] at hc
          exact hmem c hc
        · rwa [update_of_ne heq] at hc
      large := hlarge }

end

def OnlyLinks (slabs : List Nat) (mem mem' : Mem) : Prop :=
  ∀ a, (∀ b ∈ slabs, ¬(b + 4 ≤ a ∧ a < b + 8)) → mem' a = mem a

omit hs in
theorem OnlyLinks.trans {list list' : List Nat} {mem mem' mem'' : Mem} (h : OnlyLinks list mem mem')
    (h' : OnlyLinks list' mem' mem'') (hsub : list ⊆ list') : OnlyLinks list' mem mem'' :=
  fun a ha => (h' a ha).trans (h a fun b hb => ha b (hsub hb))

def inUse (free : Nat → List Nat) (i : Nat) (list : List Nat) : List Nat :=
  list.filter fun b => (free b).length ≠ objsPerSlab i

omit hs in
theorem reclaimCache_inv (hi : i < slabCacheCount) (rest : List Nat) :
    ∀ (kept : List Nat) (slabs : Nat → List Nat) (s : State) (fuel : Nat),
      Inv reserved s live env slabs free → slabs i = kept ++ rest → rest.length < fuel →
      ∃ s', reclaimCache i fuel (kept.getLastD 0) (rest.headD 0) s = some s' ∧
        Inv reserved s' live env (Function.update slabs i (kept ++ inUse free i rest)) free ∧
        OnlyLinks (kept ++ inUse free i rest) s.mem s'.mem := by
  induction rest with
  | nil =>
    intro kept slabs s fuel hs hsplit hfuel
    obtain ⟨k, rfl⟩ : ∃ k, fuel = k + 1 := ⟨fuel - 1, by rw [length_nil] at hfuel; omega⟩
    have hsame : Function.update slabs i (kept ++ inUse free i []) = slabs := by
      rw [inUse, filter_nil, ← hsplit, update_eq_self]
    rw [hsame]
    exact ⟨s, by simp [reclaimCache], hs, fun _ _ => rfl⟩
  | cons b rest ih =>
    intro kept slabs s fuel hs hsplit hfuel
    obtain ⟨k, rfl⟩ : ∃ k, fuel = k + 1 := ⟨fuel - 1, by omega⟩
    have hk : rest.length < k := Nat.lt_of_succ_lt_succ hfuel
    have hchain := hs.layout.linked i hi
    rw [hsplit] at hchain
    have hne : b ≠ 0 := hchain.ne_stop b (by simp)
    have hok := hs.layout.slab i hi b (by simp [hsplit])
    have hnext : nextOf s.mem b = rest.headD 0 := hchain.suffix.head_eq
    rw [headD_cons, reclaimCache, if_neg hne]
    simp only [hnext, hok.freeCount, hok.count]
    by_cases hfull : (free b).length = objsPerSlab i ∧ objsPerSlab i > 0
    · have hinUse : inUse free i (b :: rest) = inUse free i rest := filter_cons_of_neg (by simpa using hfull.1)
      rw [if_pos hfull, hinUse]
      rcases eq_nil_or_concat kept with rfl | ⟨before, pred, rfl⟩
      · have hdrop := hs.dropSlab hi hsplit hfull.1 (hs.unlinkHead hi hsplit)
        obtain ⟨s', hrun, hs', hlinks⟩ := ih [] _ _ k hdrop (by rw [update_self]) hk
        rw [update_idem] at hs'
        exact ⟨s', hrun, hs', hlinks⟩
      · rw [concat_eq_append] at hsplit hchain ⊢
        have hlast : (before ++ [pred]).getLastD 0 = pred := by simp
        have hpredNe : pred ≠ 0 := hchain.ne_stop pred (by simp)
        have hsplit' : slabs i = before ++ pred :: b :: rest := by
          rw [hsplit, append_assoc, singleton_append]
        have hafter : Layout (store32 s.mem (pred + 4) (rest.headD 0)) s.slabList
            (Function.update slabs i (before ++ [pred] ++ rest)) free live := by
          rw [append_assoc, singleton_append]
          exact hs.unlinkAfter hi hsplit'
        have hdrop := hs.dropSlab hi hsplit hfull.1 hafter
        obtain ⟨s', hrun, hs', hlinks⟩ := ih (before ++ [pred]) _ _ k hdrop (by rw [update_self]) hk
        rw [update_idem] at hs'
        rw [hlast] at hrun ⊢
        simp only [ne_eq, hpredNe, not_false_eq_true, if_true]
        have hlink : OnlyLinks [pred] s.mem (store32 s.mem (pred + 4) (rest.headD 0)) := fun a ha => by
          have hout := ha pred mem_cons_self
          rcases lt_or_ge a (pred + 4) with hlow | hhigh
          · exact blit_of_lt hlow
          · exact blit_of_ge (by omega)
        refine ⟨s', hrun, hs', hlink.trans hlinks fun c hc => ?_⟩
        exact mem_append_left _ (mem_append_right _ hc)
    · have hused : (free b).length ≠ objsPerSlab i := fun heq => hfull ⟨heq, objsPerSlab_pos hi⟩
      have hinUse : kept ++ inUse free i (b :: rest) = kept ++ [b] ++ inUse free i rest := by
        have hcons : inUse free i (b :: rest) = b :: inUse free i rest :=
          filter_cons_of_pos (by simpa using hused)
        rw [hcons, append_assoc, singleton_append]
      rw [if_neg hfull, hinUse]
      have hrun := ih (kept ++ [b]) slabs s k hs (by rw [hsplit, append_assoc]; rfl) hk
      rwa [show (kept ++ [b]).getLastD 0 = b by simp] at hrun

omit hs in
theorem reclaimCaches_inv (caches : List Nat) (hnodup : caches.Nodup)
    (hcaches : ∀ i ∈ caches, i < slabCacheCount) (hs : Inv reserved s live env slabs free) :
    ∃ s' slabs', caches.foldlM
      (fun s i => reclaimCache i (Pmm.totalBlocks + 1) 0 (s.slabList i) s) s = some s' ∧
      Inv reserved s' live env slabs' free ∧
      (∀ i, slabs' i = if i ∈ caches then inUse free i (slabs i) else slabs i) ∧
      OnlyLinks (allSlabs slabs') s.mem s'.mem := by
  induction caches generalizing s slabs with
  | nil => exact ⟨s, slabs, rfl, hs, fun i => (if_neg not_mem_nil).symm, fun _ _ => rfl⟩
  | cons i caches ih =>
    obtain ⟨hnot, hnodup⟩ := nodup_cons.mp hnodup
    have hi := hcaches i mem_cons_self
    have hlength := hs.length_le hi
    obtain ⟨s₁, hrun, hs₁, hlinks⟩ :=
      reclaimCache_inv hi (slabs i) [] slabs s (Pmm.totalBlocks + 1) hs rfl (by omega)
    obtain ⟨s', slabs', hrest, hs', hslabs', hlinks'⟩ :=
      ih hnodup (fun j hj => hcaches j (mem_cons_of_mem i hj)) hs₁
    have hfirst : slabs' i = inUse free i (slabs i) := by
      rw [hslabs' i, if_neg hnot, update_self, nil_append]
    refine ⟨s', slabs', ?_, hs', fun j => ?_, hlinks.trans hlinks' fun b hb => ?_⟩
    · rw [foldlM_cons, (hs.layout.linked i hi).head_eq]
      exact (congrArg (· >>= _) hrun).trans hrest
    · by_cases heq : j = i
      · rw [heq, hfirst, if_pos mem_cons_self]
      · rw [hslabs' j, update_of_ne heq]
        refine if_congr ?_ rfl rfl
        rw [mem_cons, or_iff_right heq]
    · rw [nil_append, ← hfirst] at hb
      exact mem_allSlabs hi hb

theorem kheapReclaim_inv : ∃ s' slabs', kheapReclaim s = some s' ∧ Inv reserved s' live env slabs' free ∧
      (∀ i, i < slabCacheCount → slabs' i = inUse free i (slabs i)) ∧
      OnlyLinks (allSlabs slabs') s.mem s'.mem := by
  obtain ⟨s', slabs', hrun, hs', hslabs', hlinks⟩ := reclaimCaches_inv (List.range slabCacheCount)
    nodup_range (fun i hi => mem_range.mp hi) hs
  refine ⟨s', slabs', hrun, hs', fun i hi => ?_, hlinks⟩
  rw [hslabs' i, if_pos (mem_range.mpr hi)]

end Reclaim

/-- One step of the heap and of everything around it. -/
inductive Step (reserved : Nat → Bool) :
    State × List Block × List Pmm.Alloc → State × List Block × List Pmm.Alloc → Prop
  | kmalloc {s s' : State} (live : List Block) (env : List Pmm.Alloc) (size p : Nat)
      (hsize : size + 4103 < 2 ^ 32) (hrun : kmalloc s size = some (p, s')) :
      Step reserved (s, live, env) (s', grantBlock p size live, env)
  | kfree (s : State) (live : List Block) (env : List Pmm.Alloc) (blk : Block)
      (hlive : blk ∈ live) :
      Step reserved (s, live, env) (kfree s blk.ptr, live.erase blk, env)
  | kheapReclaim {s s' : State} (live : List Block) (env : List Pmm.Alloc)
      (hrun : kheapReclaim s = some s') : Step reserved (s, live, env) (s', live, env)
  /-- Owners write their payloads; memory outside the heap's frames changes freely. -/
  | write (s : State) (live : List Block) (env : List Pmm.Alloc) (mem' : Mem)
      (hmem : ∀ a, mem' a ≠ s.mem a → (∃ blk ∈ live, blk.Contains a) ∨
        ¬ HeapFrame reserved s.pmm env (a / slabPageSize)) :
      Step reserved (s, live, env) ({ s with mem := mem' }, live, env)
  /-- Another user of the memory manager allocates or frees. -/
  | client (s : State) (live : List Block) {env env' : List Pmm.Alloc} {pmm' : Pmm.State}
      (hstep : Pmm.Step (s.pmm, env) (pmm', env')) :
      Step reserved (s, live, env) ({ s with pmm := pmm' }, live, env')

section Runs

variable {reserved : Nat → Bool} (hkernel : ∀ f, f < Pmm.kernelPages → reserved f = true)

theorem client_inv (hkernel : ∀ f, f < Pmm.kernelPages → reserved f = true)
    {mine env env' : List Pmm.Alloc} {pmm pmm' : Pmm.State}
    (hstep : Pmm.Step (pmm, env) (pmm', env')) (hpmm : Pmm.Inv reserved pmm (mine ++ env)) :
    Pmm.Inv reserved pmm' (mine ++ env') := by
  have hgrant : ∀ p count, (Pmm.grant p count (mine ++ env)).Perm
      (mine ++ Pmm.grant p count env) := by
    intro p count
    unfold Pmm.grant
    split
    · exact List.Perm.refl _
    · exact perm_middle.symm
  have herase : ∀ a ∈ env, (mine ++ env).Perm (a :: (mine ++ env.erase a)) := fun a ha =>
    ((perm_cons_erase ha).append_left mine).trans perm_middle
  cases hstep with
  | allocBlock => exact (Pmm.pmmAllocBlock_inv hkernel hpmm).perm (hgrant _ _)
  | allocBlocks _ _ count => exact (Pmm.pmmAllocBlocks_inv hkernel hpmm count).perm (hgrant _ _)
  | freeBlock _ _ a hlive hone =>
    have hfree := Pmm.pmmFreeBlock_inv (hpmm.perm (herase a hlive)) mem_cons_self hone
    rwa [erase_cons_head] at hfree
  | freeBlocks _ _ a hlive => exact Pmm.pmmFreeBlocks_perm hpmm (herase a hlive)

include hkernel

theorem Step.inv {s s' : State} {live live' : List Block} {env env' : List Pmm.Alloc}
    (hstep : Step reserved (s, live, env) (s', live', env'))
    (hs : ∃ slabs free, Inv reserved s live env slabs free ∧ Occupied slabs free live) :
    ∃ slabs free, Inv reserved s' live' env' slabs free ∧ Occupied slabs free live' := by
  obtain ⟨slabs, free, hs, hoccupied⟩ := hs
  cases hstep with
  | kmalloc _ _ size p hsize hrun =>
    obtain ⟨p', s₁, slabs', free', hrun', hinv, hkeeps, -⟩ := kmalloc_inv hkernel hs hsize
    rw [hrun] at hrun'
    cases hrun'
    exact ⟨slabs', free', hinv, hkeeps hoccupied⟩
  | kfree _ _ _ blk hlive =>
    obtain ⟨free', hinv, hkeeps⟩ := kfree_inv hs hlive
    exact ⟨slabs, free', hinv, hkeeps hoccupied⟩
  | kheapReclaim _ _ hrun =>
    obtain ⟨s₁, slabs', hrun', hinv, hslabs', -⟩ := kheapReclaim_inv hs
    rw [hrun] at hrun'
    cases hrun'
    refine ⟨slabs', free, hinv, hoccupied.subset fun i hi b hb => ?_⟩
    rw [hslabs' i hi] at hb
    exact (mem_filter.mp hb).1
  | write _ _ _ mem' hmem => exact ⟨slabs, free, hs.write hmem, hoccupied⟩
  | client _ _ hstep =>
    exact ⟨slabs, free, { hs with pmm := client_inv hkernel hstep hs.pmm }, hoccupied⟩

theorem run_inv {start finish : State × List Block × List Pmm.Alloc}
    (hrun : Relation.ReflTransGen (Step reserved) start finish)
    (hstart : ∃ slabs free, Inv reserved start.1 start.2.1 start.2.2 slabs free ∧
      Occupied slabs free start.2.1) :
    ∃ slabs free, Inv reserved finish.1 finish.2.1 finish.2.2 slabs free ∧ Occupied slabs free finish.2.1 := by
  induction hrun with
  | refl => exact hstart
  | tail _ hstep ih => exact Step.inv hkernel hstep ih

end Runs

/-- A step in which the size that is asked for need not be one that the sums can hold. -/
inductive AnyStep (reserved : Nat → Bool) :
    State × List Block × List Pmm.Alloc → State × List Block × List Pmm.Alloc → Prop
  | kmalloc {s s' : State} (live : List Block) (env : List Pmm.Alloc) (size p : Nat)
      (hsize : size < 2 ^ 32) (hrun : kmalloc s size = some (p, s')) :
      AnyStep reserved (s, live, env) (s', grantBlock p (extent size) live, env)
  | step {x y : State × List Block × List Pmm.Alloc} (hstep : Step reserved x y) : AnyStep reserved x y

variable {reserved : Nat → Bool} {y x : State × List Block × List Pmm.Alloc}

theorem AnyStep.steps (h : AnyStep reserved x y) : Relation.ReflTransGen (Step reserved) x y := by
  cases h with
  | kmalloc live env size p hsize hrun =>
    by_cases hwrap : size + 4103 < 2 ^ 32
    · have hextent : extent size = size := if_pos hwrap
      rw [hextent]
      exact .single (.kmalloc live env size p hwrap hrun)
    · rcases lt_or_ge (2 ^ 32 - 8) size with hshort | hnone
      · rw [kmalloc_extent _ (by omega) hsize] at hrun
        have hextent : extent size + 4103 < 2 ^ 32 := by
          rw [extent, if_neg hwrap]
          decide
        exact .single (.kmalloc live env (extent size) p hextent hrun)
      · rw [kmalloc_wrapped (by omega) hnone] at hrun
        cases hrun
        exact .refl
  | step hstep => exact .single hstep

theorem AnyStep.run (h : Relation.ReflTransGen (AnyStep reserved) x y) :
    Relation.ReflTransGen (Step reserved) x y := by
  induction h with
  | refl => exact .refl
  | tail _ hstep ih => exact ih.trans hstep.steps

theorem ncard_covered {allocs : List Pmm.Alloc} (hapart : allocs.Pairwise Pmm.Alloc.Disjoint) :
    Set.ncard {f | ∃ a ∈ allocs, a.Covers f} = (allocs.map (·.count)).sum := by
  induction allocs with
  | nil => simp
  | cons a allocs ih =>
    obtain ⟨hfirst, hrest⟩ := pairwise_cons.mp hapart
    have hset : {f | ∃ b ∈ a :: allocs, b.Covers f} =
        Set.Ico a.first (a.first + a.count) ∪ {f | ∃ b ∈ allocs, b.Covers f} := by
      ext f
      simp only [exists_mem_cons_iff]
      rfl
    have hfinite : {f | ∃ b ∈ allocs, b.Covers f}.Finite := by
      have hsub : {f | ∃ b ∈ allocs, b.Covers f} ⊆
          ⋃ b ∈ {b | b ∈ allocs}, Set.Ico b.first (b.first + b.count) := by
        rintro f ⟨b, hb, hcovers⟩
        exact Set.mem_biUnion hb hcovers
      have hlist : {b | b ∈ allocs}.Finite := finite_toSet allocs
      exact (hlist.biUnion fun b _ => Set.finite_Ico _ _).subset hsub
    have hdisj : Disjoint (Set.Ico a.first (a.first + a.count))
        {f | ∃ b ∈ allocs, b.Covers f} := by
      rw [Set.disjoint_left]
      rintro f hf ⟨b, hb, hcovers⟩
      exact hfirst b hb f hf hcovers
    rw [hset, Set.ncard_union_eq hdisj (Set.finite_Ico _ _) hfinite, ih hrest, map_cons,
      sum_cons, Set.ncard_eq_toFinset_card', Set.toFinset_Ico, Nat.card_Ico,
      Nat.add_sub_cancel_left]

structure Sound (reserved : Nat → Bool) (s : State) (live : List Block) (env : List Pmm.Alloc) :
    Prop where
  disjoint : live.Pairwise Block.Disjoint
  /-- Payloads lie in the heap's frames, past the slab header or the large block's header. -/
  inside : ∀ blk ∈ live, ∀ a, blk.Contains a →
    HeapFrame reserved s.pmm env (a / slabPageSize) ∧
      if blk.size ≤ slabMaxSize then pageOf a = pageOf blk.ptr ∧ pageOf a + slabHeader ≤ a
      else pageOf blk.ptr + largeHeader ≤ a
  /-- The free chain of every slab visits `free_count` distinct indices, none of them live. -/
  freeChains : ∀ i, i < slabCacheCount →
    ∃ slabs, Chain (nextOf s.mem) 0 (s.slabList i) slabs ∧ ∀ b ∈ slabs,
      ∃ idxs, Chain (nextFree s.mem b (objSizeOf s.mem b)) noIndex (freeHeadOf s.mem b) idxs ∧
        idxs.length = freeCountOf s.mem b ∧ idxs.Nodup ∧
        ∀ idx ∈ idxs, ∀ blk ∈ live, blk.ptr ≠ objAddr b (objSizeOf s.mem b) idx
  committed : s.totalCommitted = 4096 * Set.ncard {f | HeapFrame reserved s.pmm env f}
  /-- A small request fails only when its class and the memory manager are both exhausted. -/
  exhausted : ∀ size, 0 < size → size ≤ slabMaxSize → ∃ p s', kmalloc s size = some (p, s') ∧
    (p = 0 →
      (∀ slabs, Chain (nextOf s.mem) 0 (s.slabList (sizeClass size)) slabs →
        ∀ b ∈ slabs, freeCountOf s.mem b = 0) ∧
      ∀ f, f < Pmm.totalBlocks → Bitmap.test s.pmm.bitmap f = true)

theorem Inv.sound {s : State} {live : List Block} {env : List Pmm.Alloc}
    {slabs : Nat → List Nat} {free : Nat → List Nat} (hkernel : ∀ f, f < Pmm.kernelPages → reserved f = true)
    (hs : Inv reserved s live env slabs free) : Sound reserved s live env :=
  { disjoint := hs.payloads_disjoint
    inside := fun blk hblk a ha => by
      obtain ⟨hlow, hhigh⟩ := ha
      by_cases hlarge : blk.Large
      · have hok := hs.layout.large blk hblk hlarge
        have hbounds := hok.bounds
        refine ⟨hs.large_frame hblk hlarge (by omega) (by omega), ?_⟩
        rw [if_neg (not_le.mpr hlarge)]
        have hoffset := hok.offset
        unfold pageOf
        omega
      · obtain ⟨b, hb, hbase, hend⟩ := hs.small_bounds hblk hlarge
        have hball := mem_allSlabs (sizeClass_lt _) hb
        refine ⟨hs.slab_page_frame hball (by omega) (by omega), ?_⟩
        have halign := hs.aligned b hball
        rw [if_pos (Nat.le_of_not_lt hlarge), pageOf_eq halign (by omega) (by omega),
          pageOf_eq halign (by omega) (by omega)]
        exact ⟨rfl, by omega⟩
    freeChains := fun i hi => by
      refine ⟨slabs i, hs.layout.linked i hi, fun b hb => ⟨free b, ?_⟩⟩
      have hok := hs.layout.slab i hi b hb
      rw [hok.size]
      refine ⟨hok.chain, hok.freeCount.symm, hok.nodup, fun idx hidx blk hblk heq => ?_⟩
      have hdata : SlabData i b (free b) (objAddr b (objSize i) idx) := .inr ⟨idx, hidx, le_rfl, by omega⟩
      have hpos : 0 < blk.size := by
        by_cases hlarge : blk.Large
        · exact lt_of_le_of_lt (Nat.zero_le _) hlarge
        · exact (hs.small blk hblk hlarge).1
      exact hs.slabData_not_payload hi hb hdata hblk ⟨heq.le, by omega⟩
    committed := by
      have hframes : {f | HeapFrame reserved s.pmm env f} =
          {f | ∃ a ∈ owned slabs live, a.Covers f} := by
        ext f
        exact hs.heapFrame_iff f
      rw [hframes, ncard_covered (pairwise_append.mp hs.pmm.apart).1]
      exact hs.committed
    exhausted := fun size hpos hsize => by
      have hwrap : size + 4103 < 2 ^ 32 := by
        simp only [slabMaxSize] at hsize
        omega
      obtain ⟨p, s', _, _, hrun, -, -, hnull⟩ := kmalloc_inv hkernel hs hwrap
      refine ⟨p, s', hrun, fun hp => ⟨fun list hlist b hb => ?_, (hnull hpos hsize hp).2⟩⟩
      rw [hlist.unique (hs.layout.linked _ (sizeClass_lt size))] at hb
      exact (hnull hpos hsize hp).1 b hb }

theorem initKheap_inv {pmm₀ : Pmm.State} (hcounted : Pmm.Counted pmm₀) (mem : Mem) :
    Inv (Bitmap.test pmm₀.bitmap) (initKheap mem pmm₀) [] [] (fun _ => []) fun _ => [] :=
  { pmm := Pmm.Inv.init hcounted
    committed := rfl
    aligned := fun b hb => absurd hb not_mem_nil
    layout :=
      { linked := fun _ _ => rfl
        slab := by simp
        large := by simp }
    small := by simp
    distinct := List.Pairwise.nil }

theorem occupied_none (free : Nat → List Nat) (live : List Block) : Occupied (fun _ => []) free live :=
  fun _ _ _ hb => absurd hb not_mem_nil

/-- The heap keeps its promises in every state of every run after boot. -/
theorem kheap_run_sound {fuel : Nat} {info : Pmm.MultibootInfo} {pmm₀ : Pmm.State} {mem : Mem}
    (hinit : Pmm.pmmInit fuel info = some pmm₀) {s : State} {live : List Block} {env : List Pmm.Alloc}
    (hrun : Relation.ReflTransGen (Step (Bitmap.test pmm₀.bitmap)) (initKheap mem pmm₀, [], [])
      (s, live, env)) :
    Sound (Bitmap.test pmm₀.bitmap) s live env := by
  obtain ⟨hcounted, hkernel⟩ := Pmm.pmmInit_counted hinit
  obtain ⟨slabs, free, hs, -⟩ := run_inv hkernel hrun ⟨_, _, initKheap_inv hcounted mem, occupied_none _ _⟩
  exact hs.sound hkernel

/-- One `kmalloc(100)` after a boot without a memory map. -/
theorem kheap_run_sound_first_block :
    ∃ p s', kmalloc (initKheap (fun _ => 0) Pmm.bootState) 100 = some (p, s') ∧
      Sound (Bitmap.test Pmm.bootState.bitmap) s' (grantBlock p 100 []) [] := by
  have hboot : Sound (Bitmap.test Pmm.bootState.bitmap) (initKheap (fun _ => 0) Pmm.bootState) [] [] :=
    kheap_run_sound Pmm.pmmInit_no_map Relation.ReflTransGen.refl
  obtain ⟨p, s', hrun, -⟩ := hboot.exhausted 100 (by decide) (by decide)
  exact ⟨p, s', hrun, kheap_run_sound Pmm.pmmInit_no_map
    (Relation.ReflTransGen.single (Step.kmalloc [] [] 100 p (by decide) hrun))⟩

/-- `kmalloc(0)` is a request of at most 2048 bytes, and returns null with frames to spare. -/
theorem kmalloc_zero_null : Pmm.pmmInit 0 ⟨0, 0, 0, fun _ => ⟨0, 0, 0, 0⟩⟩ = some Pmm.bootState ∧
      (kmalloc (initKheap (fun _ => 0) Pmm.bootState) 0).map Prod.fst = some 0 ∧
      ¬ ∀ f, f < Pmm.totalBlocks → Bitmap.test Pmm.bootState.bitmap f = true := by
  refine ⟨Pmm.pmmInit_no_map, rfl, fun hall => ?_⟩
  have hset := hall 512 (by decide)
  rw [Pmm.bootState_free (by decide) (by decide)] at hset
  cases hset

end JexOs.Kheap
