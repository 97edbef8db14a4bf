import JexOs.Proof.JexFsCopy

/-!
# The blocks a call takes

`jexfs_bmap_alloc` takes the tables that are missing, enters each, and takes the block itself. Where the free
blocks run out, the tables that were entered by then stay entered.
-/

namespace JexOs.JexFs

open ByteMem Ownership List

section Lost

variable {total idx nb b : Nat} {d d' : Mem} {v v' : Inode} {s₀ : Slot}

theorem Links.lost_iff (hlink : Links d v d' v' s₀ nb) (h : Owned (Refs d (view d idx v)) (Used d))
    (hidx : Live d idx) (b : Nat) : LostBlock d' (view d' idx v') b ↔ LostBlock d (view d idx v) b := by
  have hrefs := hlink.refs h hidx
  constructor
  · exact (h.grow hlink.not_used hrefs hlink.used).2 b
  · rintro ⟨hb, hnone⟩
    refine ⟨(hlink.used b).mpr (.inl hb), fun k hk => ?_⟩
    rcases (hrefs k b).mp hk with hold | ⟨-, rfl⟩
    · exact hnone k hold
    · exact hlink.not_used hb

theorem lost_write (h : Owned (Refs d (view d idx v)) (Used d)) (hb : 54 ≤ b)
    (hchange : ∀ k, 1024 ≤ k → k / 1024 ≠ b → d' k = d k)
    (hheld : ∀ i s, Live d i → slotBlock d (view d idx v i) s = b → i = idx ∧ ¬s.IsTable) (c : Nat) :
    LostBlock d' (view d' idx v) c ↔ LostBlock d (view d idx v) c :=
  (owned_congr h (fun _ => live_congr fun k _ _ => hchange k (by omega) (by omega))
    (fun _ => used_congr fun k _ _ => hchange k (by omega) (by omega))
    fun _ hi s => slots_write hb hchange hheld hi s).2 c

theorem stays_take (h : Owned (Refs d (view d idx v)) (Used d)) (hidx : Live d idx) (hfresh : Fresh d nb) :
    Stays idx d v (Bitmap.set d (24576 + nb)) v ∧
      ∀ b, LostBlock (Bitmap.set d (24576 + nb)) (view (Bitmap.set d (24576 + nb)) idx v) b ↔
        LostBlock d (view d idx v) b ∨ b = nb := by
  have hsame : ∀ k, k < 3072 ∨ 11264 ≤ k → Bitmap.set d (24576 + nb) k = d k :=
    fun k hk => hfresh.set_of_outside hk
  have hlive : ∀ i, Live (Bitmap.set d (24576 + nb)) i ↔ Live d i :=
    fun i => live_congr fun k _ _ => hsame k (by omega)
  have hheld : ∀ i, Live d i → ∀ s, slotBlock d (view d idx v i) s ≠ 0 → ∀ k,
      Bitmap.set d (24576 + nb) (1024 * slotBlock d (view d idx v i) s + k) =
        d (1024 * slotBlock d (view d idx v i) s + k) := by
    intro i hi s hs k
    have hge := (owned_used h hi hs).1
    exact hsame _ (by omega)
  have hslots : ∀ i, Live d i → ∀ s, slotBlock (Bitmap.set d (24576 + nb))
      (view (Bitmap.set d (24576 + nb)) idx v i) s = slotBlock d (view d idx v i) s := by
    intro i hi s
    rw [view_congr hi.1 fun k _ _ _ => hsame k (by omega)]
    exact slotBlock_congr fun t _ ht k _ => hheld i hi t ht k
  have hrefs : Refs (Bitmap.set d (24576 + nb)) (view (Bitmap.set d (24576 + nb)) idx v) =
      Refs d (view d idx v) := by
    funext k b
    simp only [Refs, hlive]
    exact propext (and_congr_right fun hk => by rw [hslots k.1 hk])
  have hused : ∀ b, Used (Bitmap.set d (24576 + nb)) b ↔ Used d b ∨ b = nb := by
    intro b
    simp only [Used, blockBit_set, Bool.or_eq_true, decide_eq_true_eq]
    constructor
    · rintro ⟨hb, hb', heq | hbit⟩
      · exact .inr heq
      · exact .inl ⟨hb, hb', hbit⟩
    · rintro (⟨hb, hb', hbit⟩ | rfl)
      · exact ⟨hb, hb', .inr hbit⟩
      · exact ⟨hfresh.low, hfresh.high, .inl rfl⟩
  constructor
  · exact
      { owned := by
          rw [hrefs]
          exact h.leak hused
        metadata := fun k hk _ => hsame k (by omega)
        others := by
          intro i hne hi s hs k _
          have hother := hheld i hi s
          rw [view_of_ne hne] at hother
          exact hother hs k
        kept := by
          intro s _
          have hown := hslots idx hidx s
          rwa [view_self, view_self] at hown }
  · intro b
    unfold LostBlock
    rw [hrefs]
    constructor
    · rintro ⟨hb, hnone⟩
      exact ((hused b).mp hb).imp_left fun hold => ⟨hold, hnone⟩
    · rintro (⟨hb, hnone⟩ | rfl)
      · exact ⟨(hused b).mpr (.inl hb), hnone⟩
      · exact ⟨(hused b).mpr (.inr rfl), fun k hk => hfresh.not_used (h.used_of_ref k b hk)⟩

end Lost

def missing (d : Mem) (v : Inode) (lblock : Nat) : List Slot :=
  if lblock < 8 then []
  else if lblock < 520 then
    if v.indirectBlock = 0 then [.indirect] else []
  else
    let first := Slot.first (Fin.ofNat 512 ((lblock - 520) / 512))
    if v.doubleIndirect = 0 then [.double, first]
    else if slotBlock d v first = 0 then [first]
    else []

/-- Blocks were taken for these tables, one after another, and entered on the disk or in the copy of the inode. -/
inductive Enters (total : Nat) : Mem → Inode → List Slot → Mem → Inode → Prop
  | nil {d v} : Enters total d v [] d v
  | cons {d v e w s ss d' v' nb} : Links d v e w s nb → s.IsTable → (∀ i, s = .first i → w = v) →
      freeCount total e + 1 = freeCount total d → Enters total e w ss d' v' → Enters total d v (s :: ss) d' v'

section Enters

variable {total idx : Nat} {d d' : Mem} {v v' : Inode} {s : Slot} {ss : List Slot}

section

variable (h : Enters total d v ss d' v')

include h

theorem Enters.count : freeCount total d' + ss.length = freeCount total d := by
  induction h with
  | nil => rfl
  | cons _ _ _ hcount _ ih =>
    rw [length_cons]
    omega

theorem Enters.extends (howned : Owned (Refs d (view d idx v)) (Used d))
    (hidx : Live d idx) : Extends idx d v d' v' := by
  induction h with
  | nil => exact Extends.refl howned
  | cons hlink _ _ _ _ ih =>
    have hfirst := Extends.link howned hidx hlink
    exact hfirst.trans (ih hfirst.owned ((hfirst.live idx).mpr hidx))

theorem Enters.lost_iff (howned : Owned (Refs d (view d idx v)) (Used d)) (hidx : Live d idx) (b : Nat) :
    LostBlock d' (view d' idx v') b ↔ LostBlock d (view d idx v) b := by
  induction h with
  | nil => rfl
  | cons hlink _ _ _ _ ih =>
    have hfirst := Extends.link howned hidx hlink
    exact (ih hfirst.owned ((hfirst.live idx).mpr hidx)).trans (hlink.lost_iff howned hidx b)

theorem Enters.slot (hs : s ∉ ss) : slotBlock d' v' s = slotBlock d v s := by
  induction h with
  | nil => rfl
  | cons hlink _ _ _ _ ih =>
    obtain ⟨hne, hrest⟩ := not_or.mp fun h => hs (mem_cons.mpr h)
    rw [ih hrest, hlink.slots, if_neg hne]

theorem Enters.sub : v.Sub v' := by
  induction h with
  | nil => exact Inode.Sub.refl _
  | cons hlink _ _ _ _ ih => exact hlink.sub.trans ih

omit h in
theorem Enters.forgotten (h : Enters total d v (s :: ss) d' v') (hs : s = .indirect ∨ s = .double)
    (howned : Owned (Refs d (view d idx v)) (Used d)) (hidx : Live d idx) :
    ∃ b, LostBlock d' (view d' idx v) b := by
  have hextends := h.extends howned hidx
  have hsub := h.sub
  cases h with
  | @cons _ _ e w _ _ _ _ nb hlink htable hsame hcount hrest =>
    have hfirst := Extends.link howned hidx hlink
    have hidx' := (hextends.live idx).mpr hidx
    have hnb : nb ≠ 0 := by
      have hlow := hlink.low
      omega
    have hentered : slotBlock e w s = nb := by rw [hlink.slots, if_pos rfl]
    have hslot : slotBlock d' v' s = nb := by
      have hkept := (hrest.extends hfirst.owned ((hfirst.live idx).mpr hidx)).kept s (hentered ▸ hnb)
      exact hkept.trans hentered
    have hempty : slotBlock d' v s = 0 := by
      have hbefore := hlink.empty
      rcases hs with rfl | rfl
      · exact hbefore
      · exact hbefore
    have hholds : Refs d' (view d' idx v') (idx, s) nb := ⟨hidx', by rw [view_self, hslot], hnb⟩
    refine ⟨nb, hextends.owned.used_of_ref _ nb hholds, ?_⟩
    rintro ⟨i, s'⟩ ⟨hi, heq, -⟩
    by_cases hne : i = idx
    · subst hne
      rw [view_self] at heq
      have hheld : Refs d' (view d' i v') (i, s') nb :=
        ⟨hi, by rw [view_self, hsub.slotBlock_eq (d := d') (by rwa [heq]), heq], hnb⟩
      have hsame := (Prod.mk.inj (hextends.owned.holder_unique _ _ _ hheld hholds)).2
      subst hsame
      exact hnb (heq.symm.trans hempty)
    · rw [view_of_ne hne] at heq
      have hheld : Refs d' (view d' idx v') (i, s') nb := ⟨hi, by rw [view_of_ne hne, heq], hnb⟩
      exact hne (Prod.mk.inj (hextends.owned.holder_unique _ _ _ hheld hholds)).1

theorem Enters.same (hfirst : ∀ s ∈ ss, ∃ i, s = .first i) : v' = v := by
  induction h with
  | nil => rfl
  | cons _ _ hsame _ _ ih =>
    obtain ⟨⟨i, hi⟩, hrest⟩ := forall_mem_cons.mp hfirst
    exact (ih hrest).trans (hsame i hi)

end

theorem Enters.append {e : Mem} {w : Inode} {ss' : List Slot} (h : Enters total d v ss e w)
    (h' : Enters total e w ss' d' v') : Enters total d v (ss ++ ss') d' v' := by
  induction h with
  | nil => exact h'
  | cons hlink htable hsame hcount _ ih => exact .cons hlink htable hsame hcount (ih h')

end Enters

/-- A call for block `lblock` ends with the block mapped, out of range or taken, or where the free blocks run out.
-/
inductive CallEnd (total : Nat) (d : Mem) (v : Inode) (lblock : Nat) : Ret Nat → Inode → Mem → Prop
  | found {b} : jexfsBmap d v lblock = b → b ≠ 0 → CallEnd total d v lblock (.ok b) v d
  | past : 262664 ≤ lblock → CallEnd total d v lblock (.error .efbig) v d
  | full {v' d'} : lblock < 262664 → jexfsBmap d v lblock = 0 →
      freeCount total d ≤ (missing d v lblock).length →
      Enters total d v ((missing d v lblock).take (freeCount total d)) d' v' →
      CallEnd total d v lblock (.error .enospc) v' d'
  | entered {b e w v' d'} : lblock < 520 → jexfsBmap d v lblock = 0 →
      Enters total d v (missing d v lblock) e w → Links e w d' v' (dataSlot lblock) b →
      freeCount total d' + 1 = freeCount total e → CallEnd total d v lblock (.ok b) v' d'
  | stray {b t e w tbl} : 520 ≤ lblock → lblock < 262664 → jexfsBmap d v lblock = 0 →
      Enters total d v (missing d v lblock) e w → Fresh e b → 0 < freeCount total e →
      (t = b ∨ ∃ i j, t = slotBlock e w (.second i j)) →
      CallEnd total d v lblock (.ok b) w (writeBlock (Bitmap.set e (24576 + b)) t tbl)

section Call

variable {total lblock : Nat} {d d' : Mem} {v v' : Inode}

theorem Enters.exhausted {ss rest : List Slot} (h : Enters total d v ss d' v') (hl : lblock < 262664)
    (hempty : jexfsBmap d v lblock = 0) (hmissing : missing d v lblock = ss ++ rest)
    (hfull : freeCount total d' = 0) : CallEnd total d v lblock (.error .enospc) v' d' := by
  have hcount := h.count
  rw [hfull, Nat.zero_add] at hcount
  refine .full hl hempty ?_ ?_
  · rw [hmissing, length_append]
    omega
  · rw [hmissing, take_left' hcount]
    exact h

theorem missing_double (hlow : 520 ≤ lblock) :
    missing d v lblock = (if v.doubleIndirect = 0 then [.double] else []) ++
      if slotBlock d v (.first (Fin.ofNat 512 ((lblock - 520) / 512))) = 0 then
        [.first (Fin.ofNat 512 ((lblock - 520) / 512))] else [] := by
  unfold missing
  rw [if_neg (by omega), if_neg (by omega)]
  by_cases hdouble : v.doubleIndirect = 0
  · have hfirst : slotBlock d v (.first (Fin.ofNat 512 ((lblock - 520) / 512))) = 0 :=
      if_pos (toNat_eq_zero.mpr hdouble)
    rw [if_pos hdouble, if_pos hdouble, if_pos hfirst]
    rfl
  · rw [if_neg hdouble, if_neg hdouble]
    rfl

theorem bmapAllocDirect_callEnd (h : Placed d v) (hlt : lblock < 8) (hempty : jexfsBmap d v lblock = 0)
    {r : Ret Nat} (hrun : bmapAllocDirect (layout total) d v ⟨lblock, hlt⟩ = (r, v', d')) :
    CallEnd total d v lblock r v' d' := by
  have hmissing : missing d v lblock = [] := if_pos hlt
  unfold bmapAllocDirect at hrun
  split at hrun
  · rename_i halloc
    cases hrun
    exact Enters.nil.exhausted (by omega) hempty hmissing (allocBlock_eq_none halloc)
  · rename_i nb d₁ halloc
    obtain ⟨hfresh, rfl, hcount⟩ := allocBlock_fresh halloc
    cases hrun
    have hdirect : v.directBlocks ⟨lblock, hlt⟩ = 0 := by
      rw [jexfsBmap, dif_pos hlt] at hempty
      exact toNat_eq_zero.mp hempty
    have hslot : dataSlot lblock = .direct ⟨lblock, hlt⟩ := dif_pos hlt
    have hlink := links_direct hfresh h hdirect
    rw [← hslot] at hlink
    have htables : Enters total d v (missing d v lblock) d v := by
      rw [hmissing]
      exact .nil
    exact .entered (by omega) hempty htables hlink hcount

theorem bmapAllocIndirect_callEnd (h : Placed d v) (hlow : 8 ≤ lblock) (hhigh : lblock < 520)
    (hempty : jexfsBmap d v lblock = 0) {r : Ret Nat}
    (hrun : bmapAllocIndirect (layout total) d v (lblock - 8) = (r, v', d')) :
    CallEnd total d v lblock r v' d' := by
  have hmissing : missing d v lblock = if v.indirectBlock = 0 then [.indirect] else [] := by
    unfold missing
    rw [if_neg (by omega), if_pos hhigh]
  unfold bmapAllocIndirect at hrun
  split at hrun
  · rename_i hens
    obtain ⟨h0, halloc⟩ := ensureTable_none hens
    cases hrun
    exact Enters.nil.exhausted (by omega) hempty hmissing (allocBlock_eq_none halloc)
  rename_i table d₁ hens
  dsimp only at hrun
  generalize hv₁ : { v with indirectBlock := table } = v₁ at hrun
  have hbefore : Enters total d v (missing d v lblock) d₁ v₁ ∧ Placed d₁ v₁ ∧ v₁.indirectBlock = table ∧
      table ≠ 0 ∧ load16 (readBlock d₁ table.toNat) (2 * (lblock - 8)) = 0 := by
    rcases ensureTable_cases hens with ⟨hne, rfl, rfl⟩ | ⟨h0, nb, hfresh, rfl, rfl, hcount⟩
    · subst hv₁
      refine ⟨?_, h, rfl, hne, ?_⟩
      · rw [hmissing, if_neg hne]
        exact .nil
      · rw [jexfsBmap, dif_neg (by omega), if_pos (by omega), if_neg hne] at hempty
        exact hempty
    · have hlink := links_indirect hfresh h h0
      have hnb := hfresh.low
      rw [hv₁] at hlink
      refine ⟨?_, hlink.placed h, hv₁ ▸ rfl, ?_, ?_⟩
      · rw [hmissing, if_pos h0]
        exact .cons hlink trivial (fun i hi => by cases hi) hcount .nil
      · rw [Ne, ← toNat_eq_zero, toNat_ofNat hfresh.high]
        omega
      · rw [load16_readBlock, toNat_ofNat hfresh.high, load16_zeroed (by omega)]
  obtain ⟨henters, hplaced, htable, hne, hentry⟩ := hbefore
  subst htable
  rw [if_pos hentry] at hrun
  split at hrun
  · rename_i halloc
    cases hrun
    exact henters.exhausted (by omega) hempty (append_nil _).symm (allocBlock_eq_none halloc)
  · rename_i nb d₂ halloc
    obtain ⟨hfresh, rfl, hcount⟩ := allocBlock_fresh halloc
    rw [load16_store16 hfresh.high] at hrun
    cases hrun
    have hlink := links_adj hplaced (show lblock - 8 < 512 by omega) hne hentry hfresh
    rw [show lblock - 8 + 8 = lblock by omega] at hlink
    have hge : 54 ≤ v'.indirectBlock.toNat := (hplaced.used .indirect fun h0 => hne (toNat_eq_zero.mp h0)).1
    refine .entered hhigh hempty henters hlink ?_
    rw [freeCount, freeBlocksLeft_congr (d := Bitmap.set d₁ (24576 + nb)) fun k _ _ =>
      writeBlock_of_ne (by omega)]
    exact hcount

theorem ensureSecond_enters {i1 : Nat} {buf : Mem} (h : Placed d v) (hi1 : i1 < 512)
    (htable : v.doubleIndirect ≠ 0)
    (hrun : ensureSecond (layout total) d v.doubleIndirect.toNat i1 = some (buf, d')) :
    Enters total d v (if slotBlock d v (.first ⟨i1, hi1⟩) = 0 then [.first ⟨i1, hi1⟩] else []) d' v := by
  have htable' : v.doubleIndirect.toNat ≠ 0 := fun h0 => htable (toNat_eq_zero.mp h0)
  have hge : 54 ≤ v.doubleIndirect.toNat := (h.used .double htable').1
  have hslot : slotBlock d v (.first ⟨i1, hi1⟩) = load16 (readBlock d v.doubleIndirect.toNat) (2 * i1) := by
    exact if_neg htable'
  unfold ensureSecond at hrun
  rw [hslot]
  by_cases hentry : load16 (readBlock d v.doubleIndirect.toNat) (2 * i1) = 0
  · rw [if_pos hentry] at hrun
    rw [if_pos hentry]
    split at hrun
    · cases hrun
    rename_i nb d₁ halloc
    obtain ⟨hfresh, rfl, hcount⟩ := allocBlock_fresh halloc
    cases hrun
    have hlow := hfresh.low
    rw [← readBlock_set hfresh hge, writeBlock_store16 (by omega)]
    refine .cons (links_first (i := ⟨i1, hi1⟩) hfresh h htable' hentry) trivial (fun _ _ => rfl) ?_ .nil
    rw [freeCount, freeBlocksLeft_congr (d := Bitmap.set d (24576 + nb)) fun k _ _ => ?_]
    · exact hcount
    · rw [writeBlock_of_ne (by omega), store16_of_block_ne (b := v.doubleIndirect.toNat) (by omega) (by omega)
        (by omega)]
  · rw [if_neg hentry] at hrun
    rw [if_neg hentry]
    cases hrun
    exact .nil

theorem ensureSecond_none {table i1 : Nat} (hrun : ensureSecond (layout total) d table i1 = none) :
    freeCount total d = 0 := by
  unfold ensureSecond at hrun
  dsimp only at hrun
  split at hrun
  · split at hrun
    · rename_i halloc
      exact allocBlock_eq_none halloc
    · cases hrun
  · cases hrun

theorem bmapAllocDouble_callEnd (h : Placed d v) (hlow : 520 ≤ lblock) (hempty : jexfsBmap d v lblock = 0)
    {r : Ret Nat} (hrun : bmapAllocDouble (layout total) d v (lblock - 520) = (r, v', d')) :
    CallEnd total d v lblock r v' d' := by
  unfold bmapAllocDouble at hrun
  dsimp only at hrun
  by_cases hpast : 512 ≤ (lblock - 520) / 512
  · rw [if_pos hpast] at hrun
    cases hrun
    exact .past (by omega)
  rw [if_neg hpast] at hrun
  have hhigh : lblock < 262664 := by omega
  have hi1 : (lblock - 520) / 512 < 512 := by omega
  have hfin : Fin.ofNat 512 ((lblock - 520) / 512) = ⟨(lblock - 520) / 512, hi1⟩ :=
    Fin.ext (Nat.mod_eq_of_lt hi1)
  have hmissing := missing_double (d := d) (v := v) hlow
  rw [hfin] at hmissing
  have hslots := bmap_eq_second (d := d) (v := v) hlow hhigh
  rw [hfin, hempty] at hslots
  split at hrun
  · rename_i hens
    obtain ⟨h0, halloc⟩ := ensureTable_none hens
    cases hrun
    exact Enters.nil.exhausted hhigh hempty hmissing (allocBlock_eq_none halloc)
  rename_i table d₁ hens
  generalize hv₁ : { v with doubleIndirect := table } = v₁ at hrun
  -- the table of the first level is there
  have hfirst : Enters total d v (if v.doubleIndirect = 0 then [.double] else []) d₁ v₁ ∧ Placed d₁ v₁ ∧
      v₁.doubleIndirect = table ∧ table ≠ 0 := by
    rcases ensureTable_cases hens with ⟨hne, rfl, rfl⟩ | ⟨h0, nb, hfresh, rfl, rfl, hcount⟩
    · subst hv₁
      rw [if_neg hne]
      exact ⟨.nil, h, rfl, hne⟩
    · have hlink := links_double hfresh h h0
      have hnb := hfresh.low
      rw [hv₁] at hlink
      rw [if_pos h0]
      refine ⟨.cons hlink trivial (fun i hi => nomatch hi) hcount .nil, hlink.placed h, hv₁ ▸ rfl, ?_⟩
      rw [Ne, ← toNat_eq_zero, toNat_ofNat hfresh.high]
      omega
  obtain ⟨henters, hplaced, htable, hne⟩ := hfirst
  subst htable
  have hslot : ∀ s : Slot, s ≠ .double → slotBlock d₁ v₁ s = slotBlock d v s := by
    intro s hs
    refine henters.slot fun hmem => hs ?_
    split at hmem
    · exact mem_singleton.mp hmem
    · exact absurd hmem not_mem_nil
  have hkept := hslot (.first ⟨(lblock - 520) / 512, hi1⟩) (fun h => nomatch h)
  split at hrun
  · rename_i hsecond
    cases hrun
    exact henters.exhausted hhigh hempty hmissing (ensureSecond_none hsecond)
  rename_i buf d₂ hsecond
  have hsecond' := ensureSecond_enters hplaced hi1 hne hsecond
  rw [hkept] at hsecond'
  have hall := henters.append hsecond'
  rw [← hmissing] at hall
  have hempty₁ := hslot (.second ⟨(lblock - 520) / 512, hi1⟩ (Fin.ofNat 512 ((lblock - 520) % 512)))
    (fun h => nomatch h)
  rw [← hslots] at hempty₁
  obtain ⟨-, hempty₂, hbuf⟩ := ensureSecond_placed hplaced hi1 _ hne hempty₁ hsecond
  have hentry := hbuf (Fin.ofNat 512 ((lblock - 520) % 512))
  rw [hempty₂, Fin.val_ofNat, Nat.mod_mod] at hentry
  rw [if_pos hentry] at hrun
  split at hrun
  · rename_i halloc
    cases hrun
    exact hall.exhausted hhigh hempty (append_nil _).symm (allocBlock_eq_none halloc)
  rename_i nb d₃ halloc
  obtain ⟨hfresh, rfl, hcount⟩ := allocBlock_fresh halloc
  rw [load16_store16 hfresh.high] at hrun
  cases hrun
  refine .stray hlow hhigh hempty hall hfresh (by omega) ?_
  by_cases heq : (lblock - 520) / 512 = (lblock - 520) % 512
  · left
    rw [heq, load16_store16 hfresh.high]
  · right
    refine ⟨⟨(lblock - 520) / 512, hi1⟩, ⟨(lblock - 520) / 512, hi1⟩, ?_⟩
    rw [load16_store16_of_ne (by omega)]
    exact hbuf ⟨(lblock - 520) / 512, hi1⟩

theorem bmapAlloc_callEnd (h : Placed d v) {r : Ret Nat}
    (hrun : jexfsBmapAlloc (layout total) d v lblock = (r, v', d')) : CallEnd total d v lblock r v' d' := by
  unfold jexfsBmapAlloc at hrun
  by_cases hexist : jexfsBmap d v lblock = 0
  · rw [if_neg (not_not_intro hexist)] at hrun
    by_cases hdirect : lblock < 8
    · rw [dif_pos hdirect] at hrun
      exact bmapAllocDirect_callEnd h hdirect hexist hrun
    · rw [dif_neg hdirect] at hrun
      by_cases hindirect : lblock - 8 < 512
      · rw [if_pos hindirect] at hrun
        exact bmapAllocIndirect_callEnd h (by omega) (by omega) hexist hrun
      · rw [if_neg hindirect] at hrun
        exact bmapAllocDouble_callEnd h (by omega) hexist hrun
  · rw [if_pos hexist] at hrun
    cases hrun
    exact .found rfl hexist

end Call

section Leaves

variable {total idx lblock b t : Nat} {d d' tbl : Mem} {v v' : Inode}

/-- The block that was entered nowhere is lost; what is overwritten is a data block of the inode, the new block itself,
or the boot block. -/
theorem stays_stray (h : Owned (Refs d (view d idx v)) (Used d)) (hidx : Live d idx) (hfresh : Fresh d b)
    (ht : t = b ∨ ∃ i j, t = slotBlock d v (.second i j)) (tbl : Mem) :
    Stays idx d v (writeBlock (Bitmap.set d (24576 + b)) t tbl) v ∧
      (∀ c, LostBlock (writeBlock (Bitmap.set d (24576 + b)) t tbl)
        (view (writeBlock (Bitmap.set d (24576 + b)) t tbl) idx v) c ↔ LostBlock d (view d idx v) c ∨ c = b) ∧
      ∀ k, 11264 ≤ k → k < 55296 → writeBlock (Bitmap.set d (24576 + b)) t tbl k = d k := by
  obtain ⟨htaken, hlost⟩ := stays_take h hidx hfresh
  have hidx' := (htaken.live idx).mpr hidx
  have hlow := hfresh.low
  have hunheld : ∀ i s, Live (Bitmap.set d (24576 + b)) i →
      slotBlock (Bitmap.set d (24576 + b)) (view (Bitmap.set d (24576 + b)) idx v i) s = b →
      i = idx ∧ ¬s.IsTable := fun i s hi heq =>
    absurd ⟨hi, heq, by omega⟩ (((hlost b).mpr (.inr rfl)).2 (i, s))
  -- the block in which the write is seen
  have htarget : ∃ c, 54 ≤ c ∧ (∀ k, 1024 ≤ k → k / 1024 ≠ c → k / 1024 ≠ t) ∧
      ∀ i s, Live (Bitmap.set d (24576 + b)) i →
        slotBlock (Bitmap.set d (24576 + b)) (view (Bitmap.set d (24576 + b)) idx v i) s = c →
        i = idx ∧ ¬s.IsTable := by
    rcases ht with rfl | ⟨i, j, rfl⟩
    · exact ⟨t, hlow, fun _ _ hne => hne, hunheld⟩
    · by_cases hzero : slotBlock d v (.second i j) = 0
      · refine ⟨b, hlow, fun k hk _ => ?_, hunheld⟩
        omega
      · have hkept := htaken.kept _ hzero
        refine ⟨slotBlock d v (.second i j), ((placed_of_owned h hidx).used _ hzero).1, fun _ _ hne => hne,
          fun i' s hi heq => ?_⟩
        have hunique := owned_unique htaken.owned hidx' hi (.second i j) s
        rw [view_self, hkept] at hunique
        obtain ⟨rfl, rfl⟩ := hunique hzero heq
        exact ⟨rfl, id⟩
  obtain ⟨c, hc, hother, hheld⟩ := htarget
  have hchange : ∀ k, 1024 ≤ k → k / 1024 ≠ c →
      writeBlock (Bitmap.set d (24576 + b)) t tbl k = Bitmap.set d (24576 + b) k :=
    fun k hk hne => writeBlock_of_ne (hother k hk hne)
  refine ⟨htaken.trans (Stays.write htaken.owned hidx' hc hchange hheld),
    fun c' => (lost_write htaken.owned hc hchange hheld c').trans (hlost c'), fun k hk hk' => ?_⟩
  rw [hchange k (by omega) (by omega), hfresh.set_of_outside (.inr hk)]

structure Passes (idx : Nat) (d : Mem) (v : Inode) (d' : Mem) (v' : Inode) : Prop
    extends Stays idx d v d' v' where
  table : ∀ k, 11264 ≤ k → k < 55296 → d' k = d k
  size : v'.size = v.size
  wasted : ∀ b, LostBlock d (view d idx v) b → LostBlock d' (view d' idx v') b

theorem Enters.passes {ss : List Slot} (h : Enters total d v ss d' v')
    (howned : Owned (Refs d (view d idx v)) (Used d)) (hidx : Live d idx) : Passes idx d v d' v' :=
  { h.extends howned hidx with wasted := fun b => (h.lost_iff howned hidx b).mpr }

theorem CallEnd.passes {r : Ret Nat} (h : CallEnd total d v lblock r v' d')
    (howned : Owned (Refs d (view d idx v)) (Used d)) (hidx : Live d idx) : Passes idx d v d' v' := by
  cases h with
  | found _ _ => exact (show Enters total d v [] d v from .nil).passes howned hidx
  | past _ => exact (show Enters total d v [] d v from .nil).passes howned hidx
  | full _ _ _ henters => exact henters.passes howned hidx
  | entered _ _ henters hlink _ =>
    have hextends := henters.extends howned hidx
    have hidx' := (hextends.live idx).mpr hidx
    exact
      { hextends.trans (Extends.link hextends.owned hidx' hlink) with
        wasted := fun b hb =>
          (hlink.lost_iff hextends.owned hidx' b).mpr ((henters.lost_iff howned hidx b).mpr hb) }
  | stray _ _ _ henters hfresh _ ht =>
    have hextends := henters.extends howned hidx
    have hidx' := (hextends.live idx).mpr hidx
    obtain ⟨hstays, hlost, htable⟩ := stays_stray hextends.owned hidx' hfresh ht _
    exact
      { hextends.toStays.trans hstays with
        table := fun k hk hk' => (htable k hk hk').trans (hextends.table k hk hk')
        size := hextends.size
        wasted := fun b hb => (hlost b).mpr (.inl ((henters.lost_iff howned hidx b).mpr hb)) }

theorem CallEnd.lt (h : CallEnd total d v lblock (.ok b) v' d') : lblock < 262664 := by
  cases h with
  | found hb hne => exact Nat.lt_of_not_le fun hge => hne (hb.symm.trans (bmap_past hge))
  | entered hlt _ _ _ _ => omega
  | stray _ hhigh _ _ _ _ _ => exact hhigh

theorem CallEnd.writable (h : CallEnd total d v lblock (.ok b) v' d')
    (howned : Owned (Refs d (view d idx v)) (Used d)) (hidx : Live d idx) :
    54 ≤ b ∧ ∀ i s, Live d' i → slotBlock d' (view d' idx v' i) s = b → i = idx ∧ ¬s.IsTable := by
  have hpasses := h.passes howned hidx
  have hidx' := (hpasses.live idx).mpr hidx
  have hheld : ∀ s, ¬s.IsTable → slotBlock d' v' s = b → b ≠ 0 →
      54 ≤ b ∧ ∀ i s, Live d' i → slotBlock d' (view d' idx v' i) s = b → i = idx ∧ ¬s.IsTable := by
    rintro s hs rfl hne
    refine ⟨((placed_of_owned hpasses.owned hidx').used s hne).1, fun i s' hi heq => ?_⟩
    have hunique := owned_unique hpasses.owned hidx' hi s s'
    rw [view_self] at hunique
    obtain ⟨rfl, rfl⟩ := hunique hne heq
    exact ⟨rfl, hs⟩
  have hlt := h.lt
  cases h with
  | found hb hne =>
    rw [bmap_mapSlot hlt] at hb
    exact hheld _ (mapSlot_not_table lblock) hb hne
  | entered _ _ _ hlink _ =>
    have hlow := hlink.low
    exact hheld (dataSlot lblock) (dataSlot_not_table lblock) (by rw [hlink.slots, if_pos rfl]) (by omega)
  | stray _ _ _ henters hfresh _ ht =>
    have hextends := henters.extends howned hidx
    obtain ⟨-, hlost, -⟩ := stays_stray hextends.owned ((hextends.live idx).mpr hidx) hfresh ht _
    have hlow := hfresh.low
    exact ⟨hlow, fun i s hi heq => absurd ⟨hi, heq, by omega⟩ (((hlost b).mpr (.inr rfl)).2 (i, s))⟩

end Leaves

end JexOs.JexFs
