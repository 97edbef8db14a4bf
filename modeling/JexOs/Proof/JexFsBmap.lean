import JexOs.Proof.JexFsMap

/-!
# What jexfs_bmap_alloc maps

A block among the first 520 is entered into its slot. A double-indirect block is entered nowhere: `l1` points
into the buffer the second-level table was read to.
-/

namespace JexOs.JexFs

open ByteMem Ownership

def mapSlot (lblock : Nat) : Slot :=
  if lblock < 520 then dataSlot lblock
  else .second (Fin.ofNat 512 ((lblock - 520) / 512)) (Fin.ofNat 512 ((lblock - 520) % 512))

theorem mapSlot_of_lt {lblock : Nat} (h : lblock < 520) : mapSlot lblock = dataSlot lblock :=
  if_pos h

theorem mapSlot_not_table (lblock : Nat) : ¬(mapSlot lblock).IsTable := by
  unfold mapSlot
  split
  · exact dataSlot_not_table lblock
  · exact id

theorem mapSlot_inj {l l' : Nat} (h : l < 262664) (h' : l' < 262664)
    (heq : mapSlot l = mapSlot l') : l = l' := by
  have hsecond : ∀ (n : Nat) (i j : Fin 512), dataSlot n ≠ .second i j := by
    intro n i j
    unfold dataSlot
    split <;> simp
  unfold mapSlot at heq
  split at heq <;> split at heq
  · exact dataSlot_inj ‹_› ‹_› heq
  · exact absurd heq (hsecond l _ _)
  · exact absurd heq.symm (hsecond l' _ _)
  · simp only [Slot.second.injEq, Fin.ext_iff, Fin.val_ofNat] at heq
    omega

section Bmap

variable {d d' : Mem} {v v' : Inode} {lblock : Nat}

theorem bmap_eq_second (hlow : 520 ≤ lblock) (hhigh : lblock < 262664) :
    jexfsBmap d v lblock = slotBlock d v (.second (Fin.ofNat 512 ((lblock - 520) / 512))
      (Fin.ofNat 512 ((lblock - 520) % 512))) := by
  have hi1 : (lblock - 520) / 512 < 512 := by omega
  unfold jexfsBmap
  rw [dif_neg (by omega), if_neg (by omega)]
  by_cases hdouble : v.doubleIndirect = 0
  · simp only [slotBlock, toNat_eq_zero, hdouble, if_true]
  · simp only [slotBlock, toNat_eq_zero, hdouble, Fin.val_ofNat, tableEntry_eq,
      Nat.mod_eq_of_lt hi1, Nat.mod_mod, Nat.not_le_of_lt hi1, if_false]
    rfl

theorem bmap_mapSlot (h : lblock < 262664) : jexfsBmap d v lblock = slotBlock d v (mapSlot lblock) := by
  unfold mapSlot
  split
  · exact bmap_eq ‹_›
  · exact bmap_eq_second (by omega) h

theorem bmap_past (h : 262664 ≤ lblock) : jexfsBmap d v lblock = 0 := by
  unfold jexfsBmap
  rw [dif_neg (by omega), if_neg (by omega)]
  split
  · rfl
  · exact if_pos (by omega)

theorem bmap_congr (h : ∀ l, slotBlock d' v' (mapSlot l) = slotBlock d v (mapSlot l)) (lblock : Nat) :
    jexfsBmap d' v' lblock = jexfsBmap d v lblock := by
  by_cases hl : lblock < 262664
  · rw [bmap_mapSlot hl, bmap_mapSlot hl, h]
  · rw [bmap_past (by omega), bmap_past (by omega)]

end Bmap

inductive Allocates (d : Mem) (v : Inode) (lblock b : Nat) : Inode → Mem → Prop
  | found : jexfsBmap d v lblock = b → b ≠ 0 → Allocates d v lblock b v d
  | entered {v' d'} : Links d v d' v' (dataSlot lblock) b → Allocates d v lblock b v' d'
  | tabled {nb v₁ d₁ v' d'} : Links d v d₁ v₁ .indirect nb →
      Links d₁ v₁ d' v' (dataSlot lblock) b → Allocates d v lblock b v' d'

section Allocates

variable {total lblock b : Nat} {d d' : Mem} {v v' : Inode}

theorem links_adj {adj nb : Nat} (h : Placed d v) (hadj : adj < 512) (htable : v.indirectBlock ≠ 0)
    (hempty : load16 (readBlock d v.indirectBlock.toNat) (2 * adj) = 0) (hfresh : Fresh d nb) :
    Links d v (writeBlock (Bitmap.set d (24576 + nb)) v.indirectBlock.toNat
      (store16 (readBlock d v.indirectBlock.toNat) (2 * adj) nb)) v (dataSlot (adj + 8)) nb := by
  have htable' : v.indirectBlock.toNat ≠ 0 := fun h0 => htable (toNat_eq_zero.mp h0)
  have hge : 54 ≤ v.indirectBlock.toNat := (h.used .indirect htable').1
  have hslot : dataSlot (adj + 8) = .entry ⟨adj, hadj⟩ := by
    unfold dataSlot
    rw [dif_neg (by omega)]
    congr 1
    ext
    simp only [Fin.val_ofNat]
    omega
  rw [← readBlock_set hfresh hge, writeBlock_store16 (by omega), hslot]
  exact links_entry (j := ⟨adj, hadj⟩) hfresh h htable' hempty

theorem bmapAllocIndirect_allocates (h : Placed d v) (hlow : 8 ≤ lblock) (hhigh : lblock < 520)
    (hempty : jexfsBmap d v lblock = 0)
    (hrun : bmapAllocIndirect (layout total) d v (lblock - 8) = (.ok b, v', d')) :
    Allocates d v lblock b v' d' ∧ ∀ k, k < 1024 ∨ k / 1024 = b → d' k = d k := by
  unfold bmapAllocIndirect at hrun
  split at hrun
  · cases hrun
  rename_i table d₁ hens
  dsimp only at hrun
  -- the table is there, and empty at the entry
  have hbefore : ∃ v₁, v₁ = { v with indirectBlock := table } ∧ Placed d₁ v₁ ∧ table ≠ 0 ∧
      load16 (readBlock d₁ table.toNat) (2 * (lblock - 8)) = 0 ∧
      (∀ k, k < 1024 ∨ 54 ≤ k / 1024 → k / 1024 ≠ table.toNat → d₁ k = d k) ∧
      ((v₁ = v ∧ d₁ = d) ∨ ∃ nb, Links d v d₁ v₁ .indirect nb) := by
    rcases ensureTable_cases hens with ⟨hne, rfl, rfl⟩ | ⟨h0, nb, hfresh, rfl, rfl, -⟩
    · refine ⟨v, rfl, h, hne, ?_, fun _ _ _ => rfl, .inl ⟨rfl, rfl⟩⟩
      rw [jexfsBmap, dif_neg (by omega), if_pos (by omega), if_neg hne] at hempty
      exact hempty
    · have hlink := links_indirect hfresh h h0
      have hnb := hfresh.low
      refine ⟨_, rfl, hlink.placed h, ?_, ?_, fun k hk hk' => ?_, .inr ⟨nb, hlink⟩⟩
      · rw [Ne, ← toNat_eq_zero, toNat_ofNat hfresh.high]
        omega
      · rw [load16_readBlock, toNat_ofNat hfresh.high, load16_zeroed (by omega)]
      · rw [toNat_ofNat hfresh.high] at hk'
        rw [writeBlock_of_ne hk', hfresh.set_of_outside (by omega)]
  obtain ⟨v₁, hv₁, hplaced, hne, hentry, hsame, hbefore⟩ := hbefore
  rw [← hv₁] at hrun
  have htable : v₁.indirectBlock = table := by rw [hv₁]
  subst htable
  rw [if_pos hentry] at hrun
  split at hrun
  · cases hrun
  rename_i nb d₂ halloc
  obtain ⟨hfresh, rfl, -⟩ := allocBlock_fresh halloc
  rw [load16_store16 hfresh.high] at hrun
  cases hrun
  have hlink := links_adj hplaced (show lblock - 8 < 512 by omega) hne hentry hfresh
  rw [show lblock - 8 + 8 = lblock by omega] at hlink
  have hused := hplaced.used .indirect fun h0 => hne (toNat_eq_zero.mp h0)
  have hge : 54 ≤ v'.indirectBlock.toNat := hused.1
  have hother : v'.indirectBlock.toNat ≠ b := fun heq => hfresh.not_used (heq ▸ hused)
  have hlow' := hfresh.low
  refine ⟨?_, fun k hk => ?_⟩
  · rcases hbefore with ⟨rfl, rfl⟩ | ⟨nb', hlink'⟩
    · exact .entered hlink
    · exact .tabled hlink' hlink
  · rw [writeBlock_of_ne (by omega), hfresh.set_of_outside (by omega), hsame k (by omega) (by omega)]

theorem bmapAlloc_allocates (h : Placed d v) (hlt : lblock < 520)
    (hrun : jexfsBmapAlloc (layout total) d v lblock = (.ok b, v', d')) :
    Allocates d v lblock b v' d' ∧ ∀ k, k < 1024 ∨ k / 1024 = b → d' k = d k := by
  unfold jexfsBmapAlloc at hrun
  by_cases hexist : jexfsBmap d v lblock = 0
  · rw [if_neg (by simpa using hexist)] at hrun
    by_cases hdirect : lblock < 8
    · rw [dif_pos hdirect] at hrun
      unfold bmapAllocDirect at hrun
      split at hrun
      · cases hrun
      rename_i nb d₁ halloc
      obtain ⟨hfresh, rfl, -⟩ := allocBlock_fresh halloc
      cases hrun
      have hempty : v.directBlocks ⟨lblock, hdirect⟩ = 0 := by
        rw [jexfsBmap, dif_pos hdirect] at hexist
        exact toNat_eq_zero.mp hexist
      have hslot : dataSlot lblock = .direct ⟨lblock, hdirect⟩ := dif_pos hdirect
      have hge := hfresh.low
      refine ⟨.entered ?_, fun k hk => hfresh.set_of_outside (by omega)⟩
      rw [hslot]
      exact links_direct hfresh h hempty
    · rw [dif_neg hdirect, if_pos (by omega)] at hrun
      exact bmapAllocIndirect_allocates h (by omega) hlt hexist hrun
  · rw [if_pos hexist] at hrun
    cases hrun
    exact ⟨.found rfl hexist, fun _ _ => rfl⟩

theorem bmapAlloc_failed {e : Errno} (hlt : lblock < 520)
    (hrun : jexfsBmapAlloc (layout total) d v lblock = (.error e, v', d')) {k : Nat} (hk : 11264 ≤ k)
    (hused : k < 55296 ∨ Used d (k / 1024)) : d' k = d k := by
  unfold jexfsBmapAlloc at hrun
  by_cases hempty : jexfsBmap d v lblock = 0
  · rw [if_neg (not_not_intro hempty)] at hrun
    by_cases hdirect : lblock < 8
    · rw [dif_pos hdirect] at hrun
      unfold bmapAllocDirect at hrun
      split at hrun
      · cases hrun
        rfl
      · cases hrun
    · rw [dif_neg hdirect, if_pos (by omega)] at hrun
      unfold bmapAllocIndirect at hrun
      split at hrun
      · cases hrun
        rfl
      rename_i table d₁ hens
      dsimp only at hrun
      have hsame : d₁ k = d k := by
        rcases ensureTable_cases hens with ⟨-, -, rfl⟩ | ⟨-, nb, hfresh, -, rfl, -⟩
        · rfl
        · have hlow := hfresh.low
          rw [writeBlock_of_ne, hfresh.set_of_outside (.inr hk)]
          intro heq
          rcases hused with hbelow | hused
          · omega
          · exact hfresh.not_used (heq ▸ hused)
      split at hrun
      · split at hrun
        · cases hrun
          exact hsame
        · cases hrun
      · cases hrun
  · rw [if_pos hempty] at hrun
    cases hrun

theorem bmapAlloc_least (hlt : lblock < 520) (hempty : jexfsBmap d v lblock = 0)
    (hrun : jexfsBmapAlloc (layout total) d v lblock = (.ok b, v', d')) : b ∈ freeBlocksLeft total d ∧
      freeBefore total d b = if 8 ≤ lblock ∧ v.indirectBlock = 0 then 1 else 0 := by
  unfold jexfsBmapAlloc at hrun
  rw [if_neg (not_not_intro hempty)] at hrun
  by_cases hdirect : lblock < 8
  · rw [dif_pos hdirect] at hrun
    unfold bmapAllocDirect at hrun
    split at hrun
    · cases hrun
    rename_i nb d₁ halloc
    cases hrun
    rw [if_neg (by omega)]
    exact ⟨(allocBlock_erase halloc).1, (freeBefore_alloc halloc).1⟩
  · rw [dif_neg hdirect, if_pos (by omega)] at hrun
    unfold bmapAllocIndirect ensureTable at hrun
    by_cases htable : v.indirectBlock = 0
    · rw [if_neg (not_not_intro htable)] at hrun
      rw [if_pos ⟨by omega, htable⟩]
      obtain ⟨⟨nb, d₁⟩, halloc⟩ : ∃ p, jexfsAllocBlock (layout total) d = some p :=
        Option.ne_none_iff_exists'.mp fun halloc => by
          rw [halloc] at hrun
          cases hrun
      obtain ⟨hfresh, -, -⟩ := allocBlock_fresh halloc
      have hnb := hfresh.low
      have hsame : ∀ k, 3072 ≤ k → k < 11264 → writeBlock d₁ nb zeroBlock k = d₁ k :=
        fun k hk hk' => writeBlock_of_ne (by omega)
      have hzero : load16 (readBlock (writeBlock d₁ nb zeroBlock) nb) (2 * (lblock - 8)) = 0 := by
        rw [load16_readBlock, load16_zeroed (by omega)]
      rw [halloc] at hrun
      dsimp only at hrun
      rw [toNat_ofNat hfresh.high, if_pos hzero] at hrun
      split at hrun
      · cases hrun
      rename_i nb' d₂ halloc'
      obtain ⟨hmem, -⟩ := allocBlock_erase halloc'
      have hfirst := (freeBefore_alloc halloc').1
      rw [freeBlocksLeft_congr hsame] at hmem
      rw [freeBefore_congr hsame] at hfirst
      rw [load16_store16 (allocBlock_fresh halloc').1.high] at hrun
      cases hrun
      have hcount := (freeBefore_alloc halloc).2 b hmem
      rw [(allocBlock_erase halloc).2, Finset.mem_erase] at hmem
      exact ⟨hmem.2, by omega⟩
    · rw [if_pos htable] at hrun
      rw [if_neg fun h => htable h.2]
      have hentry : load16 (readBlock d v.indirectBlock.toNat) (2 * (lblock - 8)) = 0 := by
        rw [jexfsBmap, dif_neg hdirect, if_pos (by omega), if_neg htable] at hempty
        exact hempty
      dsimp only at hrun
      rw [if_pos hentry] at hrun
      split at hrun
      · cases hrun
      rename_i nb d₁ halloc
      rw [load16_store16 (allocBlock_fresh halloc).1.high] at hrun
      cases hrun
      exact ⟨(allocBlock_erase halloc).1, (freeBefore_alloc halloc).1⟩

variable (h : Allocates d v lblock b v' d')

include h

theorem Allocates.slots (hlt : lblock < 520) : slotBlock d' v' (dataSlot lblock) = b ∧
      ∀ s, ¬s.IsTable → s ≠ dataSlot lblock → slotBlock d' v' s = slotBlock d v s := by
  cases h with
  | found hb _ =>
    rw [bmap_eq hlt] at hb
    exact ⟨hb, fun _ _ _ => rfl⟩
  | entered hlink =>
    refine ⟨by rw [hlink.slots, if_pos rfl], fun s _ hne => ?_⟩
    rw [hlink.slots, if_neg hne]
  | tabled htable hlink =>
    refine ⟨by rw [hlink.slots, if_pos rfl], fun s hdata hne => ?_⟩
    rw [hlink.slots, if_neg hne, htable.slots, if_neg]
    rintro rfl
    exact hdata trivial

theorem Allocates.bmap_other (hlt : lblock < 520) {l : Nat}
    (hne : l ≠ lblock) : jexfsBmap d' v' l = jexfsBmap d v l := by
  by_cases hl : l < 262664
  · rw [bmap_mapSlot hl, bmap_mapSlot hl]
    refine (h.slots hlt).2 _ (mapSlot_not_table l) fun heq => hne ?_
    rw [← mapSlot_of_lt hlt] at heq
    exact mapSlot_inj hl (by omega) heq
  · rw [bmap_past (by omega), bmap_past (by omega)]

theorem Allocates.placed (hplaced : Placed d v) : Placed d' v' := by
  cases h with
  | found _ _ => exact hplaced
  | entered hlink => exact hlink.placed hplaced
  | tabled htable hlink => exact hlink.placed (htable.placed hplaced)

theorem Allocates.ne_zero : b ≠ 0 := by
  cases h with
  | found _ hb => exact hb
  | entered hlink =>
    have := hlink.low
    omega
  | tabled _ hlink =>
    have := hlink.low
    omega

end Allocates

section Double

variable {total lblock b : Nat} {d d' : Mem} {v v' : Inode}

theorem ensureSecond_placed {i1 : Nat} {buf : Mem} (h : Placed d v) (hi1 : i1 < 512) (i2 : Fin 512)
    (htable : v.doubleIndirect ≠ 0) (hempty : slotBlock d v (.second ⟨i1, hi1⟩ i2) = 0)
    (hrun : ensureSecond (layout total) d v.doubleIndirect.toNat i1 = some (buf, d')) :
    Placed d' v ∧ slotBlock d' v (.second ⟨i1, hi1⟩ i2) = 0 ∧
      ∀ j : Fin 512, load16 buf (2 * j) = slotBlock d' v (.second ⟨i1, hi1⟩ j) := by
  have htable' : v.doubleIndirect.toNat ≠ 0 := fun h0 => htable (toNat_eq_zero.mp h0)
  have hge : 54 ≤ v.doubleIndirect.toNat := (h.used .double htable').1
  unfold ensureSecond at hrun
  by_cases hentry : load16 (readBlock d v.doubleIndirect.toNat) (2 * i1) = 0
  · rw [if_pos hentry] at hrun
    split at hrun
    · cases hrun
    rename_i nb d₁ halloc
    obtain ⟨hfresh, rfl, -⟩ := allocBlock_fresh halloc
    cases hrun
    have hlink := links_first (i := ⟨i1, hi1⟩) hfresh h htable' hentry
    have hzero : ∀ j : Fin 512, slotBlock d v (.second ⟨i1, hi1⟩ j) = 0 := by
      intro j
      rw [load16_readBlock] at hentry
      simp only [slotBlock, if_neg htable']
      rw [if_pos hentry]
    rw [← readBlock_set hfresh hge, writeBlock_store16 (by omega)]
    refine ⟨hlink.placed h, ?_, fun j => ?_⟩
    · rw [hlink.slots, if_neg (by simp), hempty]
    · rw [hlink.slots, if_neg (by simp), hzero j]
      rfl
  · rw [if_neg hentry] at hrun
    cases hrun
    refine ⟨h, hempty, fun j => ?_⟩
    rw [load16_readBlock] at hentry
    simp only [slotBlock, if_neg htable']
    rw [if_neg hentry]
    rfl

theorem secondEntry_lost {buf : Mem} {i1 : Fin 512} {nb : Nat} (i2 : Fin 512) (h : Placed d v)
    (hbuf : ∀ j : Fin 512, load16 buf (2 * j) = slotBlock d v (.second i1 j)) (hfresh : Fresh d nb) :
    let tbl := store16 buf (2 * i2) nb
    slotBlock (writeBlock (Bitmap.set d (24576 + nb)) (load16 tbl (2 * i1)) tbl) v
      (.second i1 i2) = slotBlock d v (.second i1 i2) := by
  have htarget : load16 (store16 buf (2 * i2) nb) (2 * i1) = nb ∨
      load16 (store16 buf (2 * i2) nb) (2 * i1) = slotBlock d v (.second i1 i1) := by
    by_cases heq : i1 = i2
    · left
      rw [heq, load16_store16 hfresh.high]
    · right
      rw [load16_store16_of_ne (by omega), hbuf]
  refine slotBlock_congr fun t ht hne k hk => ?_
  have hused := h.used t hne
  have hge := hused.1
  have hnb : slotBlock d v t ≠ nb := fun heq => hfresh.not_used (heq ▸ hused)
  have hdata : slotBlock d v t ≠ slotBlock d v (.second i1 i1) := by
    intro heq
    have hs := h.unique t (.second i1 i1) hne heq.symm
    rw [← hs] at ht
    exact ht.isTable
  rw [writeBlock_of_ne, hfresh.set_of_outside (.inr (by omega))]
  rcases htarget with heq | heq
  · omega
  · omega

theorem bmapAllocDouble_lost (h : Placed d v) (hlow : 520 ≤ lblock) (hhigh : lblock < 262664)
    (hempty : jexfsBmap d v lblock = 0)
    (hrun : bmapAllocDouble (layout total) d v (lblock - 520) = (.ok b, v', d')) :
    jexfsBmap d' v' lblock = 0 ∧ b ≠ 0 := by
  have hi1 : (lblock - 520) / 512 < 512 := by omega
  rw [bmap_eq_second hlow hhigh] at hempty ⊢
  have hfin : Fin.ofNat 512 ((lblock - 520) / 512) = ⟨(lblock - 520) / 512, hi1⟩ :=
    Fin.ext (Nat.mod_eq_of_lt hi1)
  rw [hfin] at hempty ⊢
  unfold bmapAllocDouble at hrun
  dsimp only at hrun
  rw [if_neg (by omega)] at hrun
  split at hrun
  · cases hrun
  rename_i table d₁ hens
  have hfirst : ∃ v₁, v₁ = { v with doubleIndirect := table } ∧ Placed d₁ v₁ ∧ table ≠ 0 ∧
      slotBlock d₁ v₁ (.second ⟨(lblock - 520) / 512, hi1⟩
        (Fin.ofNat 512 ((lblock - 520) % 512))) = 0 := by
    rcases ensureTable_cases hens with ⟨hne, rfl, rfl⟩ | ⟨h0, nb, hfresh, rfl, rfl, -⟩
    · exact ⟨v, rfl, h, hne, hempty⟩
    · have hlink := links_double hfresh h h0
      have hnb := hfresh.low
      refine ⟨_, rfl, hlink.placed h, ?_, ?_⟩
      · rw [Ne, ← toNat_eq_zero, toNat_ofNat hfresh.high]
        omega
      · rw [hlink.slots, if_neg (by simp), hempty]
  obtain ⟨v₁, hv₁, hplaced, hne, hempty₁⟩ := hfirst
  have htable : v₁.doubleIndirect = table := by rw [hv₁]
  subst htable
  split at hrun
  · cases hrun
  rename_i buf d₂ hsecond
  obtain ⟨hplaced₂, hempty₂, hbuf⟩ := ensureSecond_placed hplaced hi1 _ hne hempty₁ hsecond
  have hentry := hbuf (Fin.ofNat 512 ((lblock - 520) % 512))
  rw [hempty₂, Fin.val_ofNat, Nat.mod_mod] at hentry
  rw [if_pos hentry] at hrun
  split at hrun
  · cases hrun
  rename_i nb d₃ halloc
  obtain ⟨hfresh, rfl, -⟩ := allocBlock_fresh halloc
  rw [load16_store16 hfresh.high] at hrun
  cases hrun
  have hlost := secondEntry_lost (Fin.ofNat 512 ((lblock - 520) % 512)) hplaced₂ hbuf hfresh
  rw [hempty₂, Fin.val_ofNat, Nat.mod_mod] at hlost
  have hnb := hfresh.low
  exact ⟨hlost, by omega⟩

end Double

/-- Block `lblock` is mapped to `b`, and nothing is written but the bitmap and tables of the inode. -/
structure MapsExactly (d : Mem) (v : Inode) (lblock b : Nat) (v' : Inode) (d' : Mem) : Prop where
  data : 54 ≤ b
  mapped : jexfsBmap d' v' lblock = b
  others : ∀ l, l ≠ lblock → jexfsBmap d' v' l = jexfsBmap d v l
  written : ∀ k, d' k ≠ d k →
    (3 ≤ k / 1024 ∧ k / 1024 < 11) ∨ (∃ s : Slot, s.IsTable ∧ slotBlock d v s = k / 1024) ∨
      ∃ s : Slot, s.IsTable ∧ slotBlock d' v' s = k / 1024 ∧ blockBit d (k / 1024) = false

section Exact

variable {total lblock b nb : Nat} {d d' : Mem} {v v' : Inode} {s₀ : Slot}

theorem Links.changed (hlink : Links d v d' v' s₀ nb) {k : Nat} (hk : 1024 ≤ k) (hne : d' k ≠ d k) :
    (3 ≤ k / 1024 ∧ k / 1024 < 11) ∨ k / 1024 = nb ∨ ∃ s : Slot, s.IsTable ∧ slotBlock d v s = k / 1024 := by
  by_contra hnone
  rw [not_or, not_or] at hnone
  obtain ⟨hbits, hnb, htables⟩ := hnone
  exact hne (hlink.rest k hk (by omega) hnb fun s hs heq => htables ⟨s, hs, heq⟩)

theorem Allocates.exact (h : Allocates d v lblock b v' d') (hplaced : Placed d v) (hlt : lblock < 520)
    (hsame : ∀ k, k < 1024 ∨ k / 1024 = b → d' k = d k) : MapsExactly d v lblock b v' d' := by
  have hslot := (h.slots hlt).1
  have hused := (h.placed hplaced).used (dataSlot lblock)
  rw [hslot] at hused
  refine ⟨(hused h.ne_zero).1, (bmap_eq hlt).trans hslot, fun l hne => h.bmap_other hlt hne, fun k hk => ?_⟩
  · have hlow : 1024 ≤ k := Nat.le_of_not_lt fun hlt => hk (hsame k (.inl hlt))
    have hb : k / 1024 ≠ b := fun heq => hk (hsame k (.inr heq))
    cases h with
    | found _ _ => exact absurd rfl hk
    | entered hlink =>
      rcases hlink.changed hlow hk with hbits | hnb | htable
      · exact .inl hbits
      · exact absurd hnb hb
      · exact .inr (.inl htable)
    | tabled htable hlink =>
      rename_i nb v₁ d₁
      by_cases hfirst : d₁ k = d k
      · rw [← hfirst] at hk
        rcases hlink.changed hlow hk with hbits | hnb | ⟨s, hs, heq⟩
        · exact .inl hbits
        · exact absurd hnb hb
        · by_cases hind : s = .indirect
          · right
            right
            subst hind
            rw [htable.slots, if_pos rfl] at heq
            refine ⟨.indirect, trivial, ?_, heq ▸ htable.free⟩
            rw [hlink.kept, htable.slots, if_pos rfl, heq]
            rw [htable.slots, if_pos rfl]
            omega
          · rw [htable.slots, if_neg hind] at heq
            exact .inr (.inl ⟨s, hs, heq⟩)
      · rcases htable.changed hlow hfirst with hbits | rfl | hold
        · exact .inl hbits
        · right
          right
          refine ⟨.indirect, trivial, ?_, htable.free⟩
          rw [hlink.kept, htable.slots, if_pos rfl]
          rw [htable.slots, if_pos rfl]
          omega
        · exact .inr (.inl hold)

/-- Exact below the second level of tables, and above it where the block was there. -/
theorem bmapAlloc_exact_iff (h : Placed d v) (hl : lblock < 8 + 512 + 512 * 512)
    (hrun : jexfsBmapAlloc (layout total) d v lblock = (.ok b, v', d')) :
    MapsExactly d v lblock b v' d' ↔ lblock < 520 ∨ jexfsBmap d v lblock ≠ 0 := by
  by_cases hlt : lblock < 520
  · obtain ⟨halloc, hsame⟩ := bmapAlloc_allocates h hlt hrun
    exact ⟨fun _ => .inl hlt, fun _ => halloc.exact h hlt hsame⟩
  by_cases hexist : jexfsBmap d v lblock = 0
  · refine ⟨fun hexact => ?_, fun hcond => ?_⟩
    · unfold jexfsBmapAlloc at hrun
      rw [if_neg (by simpa using hexist), dif_neg (by omega), if_neg (by omega)] at hrun
      obtain ⟨hlost, hb⟩ := bmapAllocDouble_lost h (by omega) (by omega) hexist hrun
      rw [hexact.mapped] at hlost
      exact absurd hlost hb
    · rcases hcond with hlt' | hne
      · exact absurd hlt' hlt
      · exact absurd hexist hne
  · refine ⟨fun _ => .inr hexist, fun _ => ?_⟩
    unfold jexfsBmapAlloc at hrun
    rw [if_pos hexist] at hrun
    cases hrun
    refine ⟨?_, rfl, fun _ _ => rfl, fun k hk => absurd rfl hk⟩
    rw [bmap_mapSlot hl] at hexist ⊢
    exact (h.used _ hexist).1

end Exact

theorem zero_placed (d : Mem) : Placed d Inode.zero := by
  have hslots : ∀ s, slotBlock d Inode.zero s = 0 := by
    intro s
    cases s <;> rfl
  exact ⟨fun s hne => absurd (hslots s) hne, fun s _ hne => absurd (hslots s) hne⟩

theorem bmapAlloc_exact_iff_double :
    let r := jexfsBmapAlloc (layout 4096) zeroBlock Inode.zero 520
    r.1 = .ok 56 ∧ (MapsExactly zeroBlock Inode.zero 520 56 r.2.1 r.2.2 ↔
      520 < 520 ∨ jexfsBmap zeroBlock Inode.zero 520 ≠ 0) := by
  have hok : (jexfsBmapAlloc (layout 4096) zeroBlock Inode.zero 520).1 = .ok 56 := by decide
  exact ⟨hok, bmapAlloc_exact_iff (zero_placed zeroBlock) (by decide) (Prod.ext hok rfl)⟩

/-- On an empty disk the first double-indirect block is taken and not mapped. -/
theorem not_mapsExactly_double :
    let r := jexfsBmapAlloc (layout 4096) zeroBlock Inode.zero 520
    Placed zeroBlock Inode.zero ∧ r.1 = .ok 56 ∧ jexfsBmap r.2.2 r.2.1 520 = 0 ∧
      ¬MapsExactly zeroBlock Inode.zero 520 56 r.2.1 r.2.2 := by
  have hok : (jexfsBmapAlloc (layout 4096) zeroBlock Inode.zero 520).1 = .ok 56 := by decide
  have hbmap : jexfsBmap (jexfsBmapAlloc (layout 4096) zeroBlock Inode.zero 520).2.2
      (jexfsBmapAlloc (layout 4096) zeroBlock Inode.zero 520).2.1 520 = 0 := by decide
  refine ⟨zero_placed zeroBlock, hok, hbmap, fun hexact => ?_⟩
  have hmapped := hexact.mapped
  cases hmapped

end JexOs.JexFs
