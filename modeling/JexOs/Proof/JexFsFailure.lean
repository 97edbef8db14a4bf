import JexOs.Proof.JexFsTaken

/-!
# A write that fails

What a write has taken when the blocks run out is accounted for as long as every table it made is entered on the
disk and every block it took is entered in a table.
-/

namespace JexOs.JexFs

open ByteMem Ownership Loop List

/-- Every block that is in use is referred to by exactly one slot of one allocated inode. -/
structure Accounted (d : Mem) : Prop where
  owned : Owned (Refs d (inodeAt d)) (Used d)
  kept : ∀ b, ¬LostBlock d (inodeAt d) b

def Maps (d : Mem) (idx b : Nat) : Prop := b ≠ 0 ∧ ∃ s, slotBlock d (inodeAt d idx) s = b

/-- How many bytes the loop of `jexfs_write` has copied when it leaves. -/
def written (sb : Superblock) (d : Mem) (idx : Nat) (buffer : Mem) (size offset : Nat) : Nat :=
  match jexfsReadInode sb d idx with
  | .error _ => 0
  | .ok inode =>
    match run .diverges (writeBody sb buffer size) (size + 1)
        { remain := size, curr := offset, inode := inode, disk := d } with
    | .error _ => 0
    | .ok (_, s) => size - s.remain

/-- A write has failed with the accounting as it was, and the inode has the blocks taken and a size for the bytes
copied. -/
structure Lossless (total : Nat) (d : Mem) (idx : Nat) (buffer : Mem) (size offset : Nat)
    (d' : Mem) : Prop where
  accounted : Accounted d'
  maps : ∀ b, Maps d' idx b ↔ Maps d idx b ∨ (Used d' b ∧ ¬Used d b)
  size : (inodeAt d' idx).size.toNat =
    if written (layout total) d idx buffer size offset = 0 then (inodeAt d idx).size.toNat
    else max (inodeAt d idx).size.toNat (offset + written (layout total) d idx buffer size offset)

/-- How many free blocks the `n` blocks from `first` on take, with the indirect table. -/
def taken (d : Mem) (v : Inode) (first : Nat) : Nat → Nat
  | 0 => 0
  | n + 1 =>
    taken d v first n +
      if jexfsBmap d v (first + n) ≠ 0 then 0
      else if v.indirectBlock = 0 ∧ first + n = max first 8 then 2
      else 1

/-- There are free blocks for a table that hangs in the inode, but not for block `lblock` itself. -/
def ForgetsTable (total : Nat) (d : Mem) (v : Inode) (lblock : Nat) : Prop :=
  (8 ≤ lblock ∧ lblock < 520 ∧ v.indirectBlock = 0 ∧ freeCount total d = 1) ∨
    (520 ≤ lblock ∧ lblock < 262664 ∧ v.doubleIndirect = 0 ∧ (freeCount total d = 1 ∨ freeCount total d = 2))

/-- The write forgets a table at its first block, or comes to the first double-indirect block that is not mapped. -/
inductive Wastes (total : Nat) (d : Mem) (v : Inode) (size offset : Nat) : Prop
  | forgotten : ForgetsTable total d v (offset / 1024) → Wastes total d v size offset
  | stray (l : Nat) : offset / 1024 ≤ l → 520 ≤ l → l < 262664 → 1024 * l < offset + size →
      jexfsBmap d v l = 0 → (∀ m, offset / 1024 ≤ m → 520 ≤ m → m < l → jexfsBmap d v m ≠ 0) →
      taken d v (offset / 1024) (l - offset / 1024) + (missing d v l).length < freeCount total d →
      Wastes total d v size offset

section Failure

variable {total idx size offset lblock : Nat} {d d' : Mem} {v v' : Inode} {buffer : Mem}

structure Turn (total idx : Nat) (s t : WriteState) (phys : Nat) (e : Mem) : Prop where
  busy : s.remain ≠ 0
  ends : CallEnd total s.disk s.inode (s.curr / 1024) (.ok phys) t.inode e
  stays : Stays idx s.disk s.inode t.disk t.inode
  lost : ∀ b, LostBlock t.disk (view t.disk idx t.inode) b ↔ LostBlock e (view e idx t.inode) b
  bits : ∀ k, 3072 ≤ k → k < 11264 → t.disk k = e k
  table : ∀ k, 11264 ≤ k → k < 55296 → t.disk k = s.disk k
  fileSize : t.inode.size = s.inode.size
  slots : ∀ l, slotBlock t.disk t.inode l = slotBlock e t.inode l
  remain : t.remain = s.remain - chunkOf s
  curr : t.curr = s.curr + chunkOf s

variable {s t : WriteState} {x : Errno} {phys b : Nat} {e : Mem}

theorem chunkOf_bounds (h : s.remain ≠ 0) :
    0 < chunkOf s ∧ chunkOf s ≤ s.remain ∧ s.curr % 1024 + chunkOf s ≤ 1024 ∧
      (chunkOf s = s.remain ∨ s.curr % 1024 + chunkOf s = 1024) := by
  unfold chunkOf
  omega

theorem writeBody_turn (howned : Owned (Refs s.disk (view s.disk idx s.inode)) (Used s.disk))
    (hidx : Live s.disk idx) (hbody : writeBody (layout total) buffer size s = .ok (.again t)) :
    ∃ phys e, Turn total idx s t phys e := by
  unfold writeBody at hbody
  split at hbody
  · cases hbody
  rename_i hbusy
  split at hbody
  · cases hbody
  rename_i phys w e hmap
  cases hbody
  obtain ⟨hchunk, -, hend, -⟩ := chunkOf_bounds hbusy
  have hcall := bmapAlloc_callEnd (placed_of_owned howned hidx) hmap
  have hpasses := hcall.passes howned hidx
  have hidx' := (hpasses.live idx).mpr hidx
  obtain ⟨hlow, hheld⟩ := hcall.writable howned hidx
  have hlt := hcall.lt
  have hdisk : writeBlock e phys (blit (readBlock e phys) (s.curr % 1024) (chunkOf s)
      fun k => buffer (size - s.remain + k)) =
      blit e (1024 * phys + s.curr % 1024) (chunkOf s) fun k => buffer (size - s.remain + k) :=
    writeBlock_blit hend
  have hchange : ∀ k, 1024 ≤ k → k / 1024 ≠ phys →
      blit e (1024 * phys + s.curr % 1024) (chunkOf s) (fun k => buffer (size - s.remain + k)) k = e k := by
    intro k _ hk
    rcases lt_or_ge k (1024 * phys + s.curr % 1024) with hbefore | hbehind
    · exact blit_of_lt hbefore
    · exact blit_of_ge (by omega)
  refine ⟨phys, e, ?_⟩
  unfold chunkOf at hdisk
  rw [hdisk]
  exact
    { busy := hbusy
      ends := hcall
      stays := hpasses.toStays.trans (Stays.write hpasses.owned hidx' hlow hchange hheld)
      lost := lost_write hpasses.owned hlow hchange hheld
      bits := fun k _ _ => hchange k (by omega) (by omega)
      table := fun k hk hk' => (hchange k (by omega) (by omega)).trans (hpasses.table k hk hk')
      fileSize := hpasses.size
      slots := fun l => by
        have hslot := slots_write hlow hchange hheld hidx' l
        rwa [view_self, view_self] at hslot
      remain := rfl
      curr := Nat.mod_eq_of_lt (by unfold chunkOf at *; omega) }

theorem writeBody_error (hbody : writeBody (layout total) buffer size s = .ok (.leave (.error x, t))) :
    s.remain ≠ 0 ∧ t.curr = s.curr ∧ t.remain = s.remain ∧
      jexfsBmapAlloc (layout total) s.disk s.inode (s.curr / 1024) = (.error x, t.inode, t.disk) := by
  unfold writeBody at hbody
  split at hbody
  · cases hbody
  rename_i hbusy
  split at hbody
  · rename_i x' w e hmap
    cases hbody
    exact ⟨hbusy, rfl, rfl, hmap⟩
  · cases hbody

structure Moving (idx : Nat) (d : Mem) (v : Inode) (size offset : Nat) (s : WriteState) : Prop where
  stays : Stays idx d v s.disk s.inode
  table : ∀ k, 11264 ≤ k → k < 55296 → s.disk k = d k
  fileSize : s.inode.size = v.size
  position : offset ≤ s.curr ∧ s.curr + s.remain = offset + size
  start : s.curr = offset → s.inode = v ∧ s.disk = d
  inside : s.curr = offset ∨ s.curr ≤ 268967936

structure Going (total idx : Nat) (d : Mem) (v : Inode) (size offset : Nat) (s : WriteState) : Prop
    extends Moving idx d v size offset s where
  kept : ∀ b, LostBlock s.disk (view s.disk idx s.inode) b → LostBlock d (view d idx v) b
  ahead : ∀ l, s.curr / 1024 ≤ l → jexfsBmap s.disk s.inode l = jexfsBmap d v l
  passed : ∀ l, offset / 1024 ≤ l → 520 ≤ l → l < s.curr / 1024 → jexfsBmap d v l ≠ 0
  count : freeCount total s.disk + taken d v (offset / 1024) (s.curr / 1024 - offset / 1024) =
    freeCount total d
  indirect : s.curr / 1024 < 520 →
    (s.inode.indirectBlock = 0 ↔ v.indirectBlock = 0 ∧ s.curr / 1024 ≤ max (offset / 1024) 8)
  double : s.inode.doubleIndirect = v.doubleIndirect
  second : ∀ i, slotBlock s.disk s.inode (.first i) = slotBlock d v (.first i)
  moved : offset < s.curr → offset / 1024 < s.curr / 1024

structure Strayed (total idx : Nat) (d : Mem) (v : Inode) (size offset : Nat) (s : WriteState) : Prop
    extends Moving idx d v size offset s where
  moved : offset < s.curr
  lost : ∃ b, LostBlock s.disk (view s.disk idx s.inode) b
  wastes : Wastes total d v size offset

theorem Moving.again (h : Moving idx d v size offset s)
    (hturn : Turn total idx s t phys e) : Moving idx d v size offset t := by
  obtain ⟨hchunk, hle, hblock, -⟩ := chunkOf_bounds hturn.busy
  obtain ⟨hlow, hsum⟩ := h.position
  have hlt := hturn.ends.lt
  have hremain := hturn.remain
  have hcurr := hturn.curr
  exact
    { stays := h.stays.trans hturn.stays
      table := fun k hk hk' => (hturn.table k hk hk').trans (h.table k hk hk')
      fileSize := hturn.fileSize.trans h.fileSize
      position := by omega
      start := fun heq => by omega
      inside := by omega }

theorem Turn.next (hturn : Turn total idx s t phys e) (hremain : t.remain ≠ 0) :
    t.curr / 1024 = s.curr / 1024 + 1 := by
  obtain ⟨-, -, -, hlast⟩ := chunkOf_bounds hturn.busy
  have hleft := hturn.remain
  have hcurr := hturn.curr
  omega

theorem missing_congr (hlow : 520 ≤ lblock) (hdouble : v'.doubleIndirect = v.doubleIndirect)
    (hsecond : ∀ i, slotBlock d' v' (.first i) = slotBlock d v (.first i)) :
    missing d' v' lblock = missing d v lblock := by
  rw [missing_double hlow, missing_double hlow, hdouble, hsecond]

theorem length_missing (hlt : lblock < 520) :
    (missing d v lblock).length = if 8 ≤ lblock ∧ v.indirectBlock = 0 then 1 else 0 := by
  unfold missing
  by_cases hdirect : lblock < 8
  · rw [if_pos hdirect, if_neg (by omega)]
    rfl
  · rw [if_neg hdirect, if_pos hlt]
    by_cases htable : v.indirectBlock = 0
    · rw [if_pos htable, if_pos ⟨by omega, htable⟩]
      rfl
    · rw [if_neg htable, if_neg fun h => htable h.2]
      rfl

theorem bmap_indirect (hlow : 8 ≤ lblock) (hhigh : lblock < 520) (htable : v.indirectBlock = 0) :
    jexfsBmap d v lblock = 0 := by
  unfold jexfsBmap
  rw [dif_neg (by omega), if_pos (by omega), if_pos htable]

theorem ForgetsTable.unmapped (h : ForgetsTable total d v lblock) : jexfsBmap d v lblock = 0 := by
  rcases h with ⟨hlow, hhigh, htable, -⟩ | ⟨hlow, hhigh, htable, -⟩
  · exact bmap_indirect hlow hhigh htable
  · rw [bmap_mapSlot hhigh, mapSlot, if_neg (by omega)]
    exact if_pos (toNat_eq_zero.mpr htable)

theorem taken_mono (d : Mem) (v : Inode) (first : Nat) {n m : Nat}
    (h : n ≤ m) : taken d v first n ≤ taken d v first m := by
  induction h with
  | refl => exact le_rfl
  | step _ ih => exact ih.trans (Nat.le_add_right _ _)

theorem Going.taken_next (h : Going total idx d v size offset s) (hlt : s.curr / 1024 < 520)
    (hempty : jexfsBmap s.disk s.inode (s.curr / 1024) = 0) :
    taken d v (offset / 1024) (s.curr / 1024 + 1 - offset / 1024) =
      taken d v (offset / 1024) (s.curr / 1024 - offset / 1024) +
        (missing s.disk s.inode (s.curr / 1024)).length + 1 := by
  have hfirst : offset / 1024 ≤ s.curr / 1024 := Nat.div_le_div_right h.position.1
  have htable : (v.indirectBlock = 0 ∧ s.curr / 1024 = max (offset / 1024) 8) ↔
      8 ≤ s.curr / 1024 ∧ s.inode.indirectBlock = 0 := by
    rw [h.indirect hlt]
    constructor
    · rintro ⟨h0, heq⟩
      exact ⟨by omega, h0, by omega⟩
    · rintro ⟨hge, h0, hle⟩
      exact ⟨h0, by omega⟩
  rw [h.ahead _ le_rfl] at hempty
  rw [length_missing hlt, Nat.sub_add_comm hfirst, taken, Nat.add_sub_cancel' hfirst,
    if_neg (not_not_intro hempty)]
  by_cases hnew : v.indirectBlock = 0 ∧ s.curr / 1024 = max (offset / 1024) 8
  · rw [if_pos hnew, if_pos (htable.mp hnew)]
  · rw [if_neg hnew, if_neg fun hold => hnew (htable.mpr hold)]

theorem slot_entered {w : Inode} (hlt : lblock < 520)
    (henters : Enters total d v (missing d v lblock) e w)
    (hlink : Links e w d' v' (dataSlot lblock) b) {l : Slot}
    (hl : l ≠ .indirect) (hne : l ≠ dataSlot lblock) : slotBlock d' v' l = slotBlock d v l := by
  rw [hlink.slots, if_neg hne]
  refine henters.slot fun hmem => hl ?_
  unfold missing at hmem
  split at hmem
  · exact absurd hmem not_mem_nil
  · split at hmem
    · exact mem_singleton.mp hmem
    · exact absurd hmem not_mem_nil

theorem mapSlot_ne_indirect (l : Nat) : mapSlot l ≠ .indirect := fun h =>
  mapSlot_not_table l (h ▸ trivial)

theorem dataSlot_ne_first (l : Nat) (i : Fin 512) : Slot.first i ≠ dataSlot l := fun h =>
  dataSlot_not_table l (h ▸ trivial)

theorem dataSlot_ne_double (l : Nat) : Slot.double ≠ dataSlot l := fun h =>
  dataSlot_not_table l (h ▸ trivial)

theorem indirect_of_mapped (hlow : 8 ≤ lblock) (hhigh : lblock < 520) (hne : jexfsBmap d v lblock ≠ 0) :
    v.indirectBlock ≠ 0 := fun h => hne (bmap_indirect hlow hhigh h)

theorem Strayed.again (h : Strayed total idx d v size offset s)
    (hidx : Live d idx) (hturn : Turn total idx s t phys e) : Strayed total idx d v size offset t := by
  obtain ⟨b, hb⟩ := h.lost
  have hpasses := hturn.ends.passes h.stays.owned ((h.stays.live idx).mpr hidx)
  have hmoved := h.moved
  have hcurr := hturn.curr
  exact
    { h.toMoving.again hturn with
      moved := by omega
      lost := ⟨b, (hturn.lost b).mpr (hpasses.wasted b hb)⟩
      wastes := h.wastes }

section

variable (h : Going total idx d v size offset s)

include h

theorem Going.turn (hidx : Live d idx) (hturn : Turn total idx s t phys e) :
    Strayed total idx d v size offset t ∨
      (∀ b, LostBlock t.disk (view t.disk idx t.inode) b → LostBlock d (view d idx v) b) ∧
        (520 ≤ s.curr / 1024 → jexfsBmap d v (s.curr / 1024) ≠ 0) ∧
          (s.curr = offset → ¬ForgetsTable total d v (offset / 1024)) := by
  have hmoving := h.toMoving.again hturn
  have hidx' := (h.stays.live idx).mpr hidx
  have hahead := h.ahead _ le_rfl
  have hends := hturn.ends
  generalize hlb : s.curr / 1024 = lb at *
  generalize hinode : t.inode = w at hends
  cases hends with
  | found hb hne =>
    right
    rw [hb.symm, hahead] at hne
    refine ⟨fun b hlost => ?_, fun _ => hne, fun hstart hforgets => hne ?_⟩
    · rw [← hinode] at hlost
      have hbefore := (hturn.lost b).mp hlost
      rw [hinode] at hbefore
      exact h.kept b hbefore
    · rw [← hlb, hstart]
      exact hforgets.unmapped
  | @entered _ e' w' _ _ hlt hempty henters hlink hless =>
    right
    subst hinode
    have hextends := henters.extends h.stays.owned hidx'
    refine ⟨fun b hlost => ?_, fun hge => by omega, fun hstart hforgets => ?_⟩
    · have hentered := (hlink.lost_iff hextends.owned ((hextends.live idx).mpr hidx') b).mp
        ((hturn.lost b).mp hlost)
      exact h.kept b ((henters.lost_iff h.stays.owned hidx' b).mp hentered)
    · -- both the table and the block were taken
      obtain ⟨hv, hd⟩ := h.start hstart
      rw [hv, hd] at henters
      have hsame := henters.count
      rw [length_missing hlt] at hsame
      rcases hforgets with ⟨hlow, -, htable, hone⟩ | ⟨hlow, -⟩
      · rw [if_pos ⟨by omega, htable⟩] at hsame
        omega
      · omega
  | @stray _ target e' _ tbl hlow hhigh hempty henters hfresh hroom ht =>
    left
    subst hinode
    have hfirst : offset / 1024 ≤ lb := hlb ▸ Nat.div_le_div_right h.position.1
    have hextends := henters.extends h.stays.owned hidx'
    obtain ⟨-, hlost, -⟩ := stays_stray hextends.owned ((hextends.live idx).mpr hidx') hfresh ht tbl
    obtain ⟨hchunk, -, -, -⟩ := chunkOf_bounds hturn.busy
    obtain ⟨hoffset, hsum⟩ := h.position
    have hbusy := hturn.busy
    have hcurr := hturn.curr
    have hless := henters.count
    have hbefore := h.count
    rw [missing_congr hlow h.double h.second] at hless
    refine { hmoving with
      moved := by omega
      lost := ⟨phys, (hturn.lost phys).mpr ((hlost phys).mpr (.inr rfl))⟩
      wastes := .stray lb hfirst hlow hhigh (by omega) (hahead ▸ hempty) (fun l hl hl' hlt => ?_) ?_ }
    · exact h.passed l hl hl' (by omega)
    · rw [hlb] at hbefore
      omega

theorem Going.again (hidx : Live d idx) (hturn : Turn total idx s t phys e) (hremain : t.remain ≠ 0) :
    Going total idx d v size offset t ∨ Strayed total idx d v size offset t := by
  rcases h.turn hidx hturn with hstrayed | ⟨hkept, hmapped, -⟩
  · exact .inr hstrayed
  left
  have hmoving := h.toMoving.again hturn
  have hnext := hturn.next hremain
  have hmaps : ∀ l, jexfsBmap t.disk t.inode l = jexfsBmap e t.inode l := bmap_congr fun l => hturn.slots _
  have hcount : freeCount total t.disk = freeCount total e := by
    rw [freeCount, freeBlocksLeft_congr hturn.bits]
    rfl
  have hfirst : offset / 1024 ≤ s.curr / 1024 := Nat.div_le_div_right h.position.1
  have hahead := h.ahead _ le_rfl
  have hends := hturn.ends
  generalize hlb : s.curr / 1024 = lb at *
  generalize hinode : t.inode = w at hends
  cases hends with
  | found hb hne =>
    rw [hb.symm, hahead] at hne
    rw [hinode] at hmaps
    exact
      { hmoving with
        kept := hkept
        ahead := by
          intro l hl
          rw [hinode, hmaps, h.ahead l (by omega)]
        passed := by
          intro l hl hlow hlt
          rcases Nat.lt_succ_iff_lt_or_eq.mp (hnext ▸ hlt) with hbefore | rfl
          · exact h.passed l hl hlow (by omega)
          · exact hne
        count := by
          rw [hcount, hnext, Nat.sub_add_comm hfirst, taken, Nat.add_sub_cancel' hfirst, if_pos hne,
            Nat.add_zero, ← hlb]
          exact h.count
        indirect := by
          intro hlt
          rw [hinode, h.indirect (by omega), hnext]
          refine and_congr_right fun htable => ⟨fun hle => ?_, fun hle => by omega⟩
          by_contra hgt
          exact indirect_of_mapped (by omega) (by omega) hne htable
        double := hinode ▸ h.double
        second := fun i => by rw [hturn.slots, hinode, h.second]
        moved := fun _ => by omega }
  | @entered _ e' w' _ _ hlt hempty henters hlink hless =>
    subst hinode
    have hothers : ∀ l, l ≠ .indirect → l ≠ dataSlot lb → slotBlock e t.inode l = slotBlock s.disk s.inode l :=
      fun l hl hne => slot_entered hlt henters hlink hl hne
    have htaken := h.taken_next (by omega) (by rw [hlb]; exact hempty)
    have hsame := henters.count
    have hbefore := h.count
    rw [hlb] at htaken hbefore
    exact
      { hmoving with
        kept := hkept
        ahead := by
          intro l hl
          rw [← h.ahead l (by omega), hmaps]
          by_cases hin : l < 262664
          · rw [bmap_mapSlot hin, bmap_mapSlot hin]
            refine hothers _ (mapSlot_ne_indirect l) fun heq => ?_
            rw [← mapSlot_of_lt hlt] at heq
            have hsame := mapSlot_inj hin (by omega) heq
            omega
          · rw [bmap_past (by omega), bmap_past (by omega)]
        passed := fun l hl hlow hlt' => h.passed l hl hlow (by omega)
        count := by
          rw [hcount, hnext, htaken]
          omega
        indirect := by
          intro hlt'
          by_cases hdirect : lb < 8
          · have hmissing : missing s.disk s.inode lb = [] := if_pos hdirect
            rw [hmissing] at henters
            have htable : slotBlock e t.inode .indirect = slotBlock s.disk s.inode .indirect := by
              rw [hlink.slots, if_neg, henters.slot not_mem_nil]
              exact fun heq => dataSlot_not_table lb (heq ▸ trivial)
            rw [← toNat_eq_zero]
            change slotBlock e t.inode .indirect = 0 ↔ _
            rw [htable]
            change s.inode.indirectBlock.toNat = 0 ↔ _
            rw [toNat_eq_zero, h.indirect (by omega)]
            exact and_congr_right fun _ => ⟨fun _ => by omega, fun _ => by omega⟩
          · have hmapped : jexfsBmap e t.inode lb ≠ 0 := by
              rw [bmap_eq hlt, hlink.slots, if_pos rfl]
              have hlow := hlink.low
              omega
            refine ⟨fun h0 => absurd h0 (indirect_of_mapped (by omega) hlt hmapped), fun hle => ?_⟩
            omega
        double := by
          have hslot := hothers .double (fun h => by cases h) (dataSlot_ne_double lb)
          exact (UInt16.toNat_inj.mp hslot).trans h.double
        second := fun i => by
          rw [hturn.slots, hothers (.first i) (fun h => by cases h) (dataSlot_ne_first lb i), h.second]
        moved := fun _ => by omega }
  | stray hlow _ hempty _ _ _ _ =>
    exact absurd (hahead ▸ hempty) (hmapped hlow)

omit h in
theorem CallEnd.failed (h : CallEnd total d v lblock (.error x) v' d')
    (howned : Owned (Refs d (view d idx v)) (Used d)) (hidx : Live d idx) :
    v.Sub v' ∧ ∀ b, LostBlock d' (view d' idx v') b ↔ LostBlock d (view d idx v) b := by
  cases h with
  | past _ => exact ⟨Inode.Sub.refl v, fun _ => Iff.rfl⟩
  | full _ _ _ henters => exact ⟨henters.sub, henters.lost_iff howned hidx⟩

omit h in
theorem CallEnd.forgets_iff (h : CallEnd total d v lblock (.error x) v' d')
    (howned : Owned (Refs d (view d idx v)) (Used d)) (hidx : Live d idx)
    (hkept : ∀ b, ¬LostBlock d (view d idx v) b) :
    (∃ b, LostBlock d' (view d' idx v) b) ↔ ForgetsTable total d v lblock := by
  cases h with
  | past hpast =>
    constructor
    · rintro ⟨b, hb⟩
      exact absurd hb (hkept b)
    · rintro (⟨-, hlt, -⟩ | ⟨-, hlt, -⟩)
      · omega
      · omega
  | full hlt hempty hfree henters =>
    have hfirst : ¬ForgetsTable total d v lblock →
        ∀ s ∈ (missing d v lblock).take (freeCount total d), ∃ i, s = .first i := by
      intro hnot s hs
      have hmem := mem_of_mem_take hs
      have hsome : freeCount total d ≠ 0 := fun h0 => by
        rw [h0, take_zero] at hs
        exact not_mem_nil hs
      unfold missing at hmem hfree
      split at hmem
      · exact absurd hmem not_mem_nil
      rename_i hdirect
      rw [if_neg hdirect] at hfree
      split at hmem
      · rename_i hlow
        rw [if_pos hlow] at hfree
        split at hmem
        · rename_i htable
          rw [if_pos htable] at hfree
          have hone : freeCount total d ≤ 1 := hfree
          exact absurd (.inl ⟨by omega, hlow, htable, by omega⟩) hnot
        · exact absurd hmem not_mem_nil
      · rename_i hlow
        rw [if_neg hlow] at hfree
        dsimp only at hmem hfree
        split at hmem
        · rename_i htable
          rw [if_pos htable] at hfree
          have htwo : freeCount total d ≤ 2 := hfree
          exact absurd (.inr ⟨by omega, hlt, htable, by omega⟩) hnot
        · split at hmem
          · exact ⟨_, mem_singleton.mp hmem⟩
          · exact absurd hmem not_mem_nil
    constructor
    · rintro ⟨b, hb⟩
      by_contra hnot
      have hsame := henters.same (hfirst hnot)
      subst hsame
      exact hkept b ((henters.lost_iff howned hidx b).mp hb)
    · rintro (⟨hlow, hhigh, htable, hone⟩ | ⟨hlow, -, htable, htwo⟩)
      · have hmissing : missing d v lblock = [.indirect] := by
          unfold missing
          rw [if_neg (by omega), if_pos hhigh, if_pos htable]
        rw [hmissing, hone] at henters
        exact henters.forgotten (.inl rfl) howned hidx
      · have hmissing : ∃ s, missing d v lblock = [.double, s] := by
          unfold missing
          rw [if_neg (by omega), if_neg (by omega)]
          exact ⟨_, if_pos htable⟩
        obtain ⟨s, hmissing⟩ := hmissing
        rw [hmissing] at henters
        rcases htwo with hone | htwo
        · rw [hone] at henters
          exact henters.forgotten (.inr rfl) howned hidx
        · rw [htwo] at henters
          exact henters.forgotten (.inr rfl) howned hidx

theorem Going.not_stray {w : Inode} (hends : CallEnd total s.disk s.inode (s.curr / 1024) (.error x) w e)
    {l : Nat} (hfirst : offset / 1024 ≤ l) (hlow : 520 ≤ l) (hhigh : l < 262664) (hempty : jexfsBmap d v l = 0)
    (hmapped : ∀ m, offset / 1024 ≤ m → 520 ≤ m → m < l → jexfsBmap d v m ≠ 0) :
    freeCount total d ≤ taken d v (offset / 1024) (l - offset / 1024) + (missing d v l).length := by
  have hle : offset / 1024 ≤ s.curr / 1024 := Nat.div_le_div_right h.position.1
  have hcount := h.count
  have hpassed : s.curr / 1024 ≤ l := Nat.le_of_not_lt fun hlt => h.passed l hfirst hlow hlt hempty
  cases hends with
  | past hpast => omega
  | full hlt hnone hfree _ =>
    rcases Nat.lt_or_eq_of_le hpassed with hbefore | rfl
    · by_cases hdouble : s.curr / 1024 < 520
      · have htaken := h.taken_next hdouble hnone
        have hmono := taken_mono d v (offset / 1024)
          (show s.curr / 1024 + 1 - offset / 1024 ≤ l - offset / 1024 by omega)
        omega
      · rw [h.ahead _ le_rfl] at hnone
        exact absurd hnone (hmapped _ hle (by omega) hbefore)
    · rw [missing_congr hlow h.double h.second] at hfree
      omega

theorem Going.not_forgets (hmoved : offset < s.curr) : ¬ForgetsTable total d v (offset / 1024) := by
  have hcount := h.count
  have hboundary := h.moved hmoved
  rintro (⟨hlow, hhigh, htable, hone⟩ | ⟨hlow, hhigh, htable, hmany⟩)
  · have hmono := taken_mono d v (offset / 1024) (show 1 ≤ s.curr / 1024 - offset / 1024 by omega)
    have htwo : taken d v (offset / 1024) 1 = 2 := by
      rw [taken, taken, Nat.add_zero, if_neg (not_not_intro (bmap_indirect hlow hhigh htable)),
        if_pos ⟨htable, by omega⟩]
    omega
  · exact h.passed _ le_rfl hlow hboundary (ForgetsTable.unmapped (.inr ⟨hlow, hhigh, htable, hmany⟩))

end

theorem going_start (h : Owned (Refs d (view d idx v)) (Used d)) (total size offset : Nat) :
    Going total idx d v size offset { remain := size, curr := offset, inode := v, disk := d } :=
  { stays := Stays.refl h
    table := fun _ _ _ => rfl
    fileSize := rfl
    position := ⟨le_rfl, rfl⟩
    start := fun _ => ⟨rfl, rfl⟩
    inside := .inl rfl
    kept := fun _ hb => hb
    ahead := fun _ _ => rfl
    passed := fun l hl _ hlt => absurd hl (Nat.not_le_of_lt hlt)
    count := by rw [Nat.sub_self, taken, Nat.add_zero]
    indirect := fun _ => (and_iff_left (Nat.le_max_left _ _)).symm
    double := rfl
    second := fun _ => rfl
    moved := fun hlt => absurd hlt (lt_irrefl _) }

theorem Stays.forget (h : Stays idx d v d' v') (hsub : v.Sub v') : Stays idx d v d' v :=
  { h with
    owned := by
      refine h.owned.drop fun k b hk => ?_
      obtain ⟨hi, heq, hb⟩ := hk
      refine ⟨hi, ?_, hb⟩
      by_cases hne : k.1 = idx
      · rw [hne, view_self] at heq ⊢
        rw [hsub.slotBlock_eq (d := d') (by rwa [heq]), heq]
      · rw [view_of_ne hne] at heq ⊢
        exact heq
    kept := fun s hs => (hsub.slotBlock_eq hs d').symm.trans (h.kept s hs) }

theorem Stays.finish (h : Stays idx d v d' v') (hidx : Live d idx) {n : UInt32}
    (hwrite : jexfsWriteInode (layout total) d' idx { v' with size := n } = .ok e) :
    inodeAt e idx = { v' with size := n } ∧ Stays idx d v e (inodeAt e idx) ∧
      ∀ b, LostBlock e (inodeAt e) b ↔ LostBlock d' (view d' idx v') b := by
  obtain ⟨-, rfl⟩ := writeInode_cases hidx.1 hwrite
  have hlt := hidx.1
  have hidx' := (h.live idx).mpr hidx
  have hresized := Stays.resize h.owned hidx' n
  have hresize := fun b => (owned_congr h.owned (fun _ => Iff.rfl) (fun _ => Iff.rfl)
    (fun i _ s => slots_resize d' idx v' n i s)).2 b
  generalize ({ v' with size := n } : Inode) = w at *
  have hcommit := fun b => (owned_congr hresized.owned
    (fun _ => live_congr fun k _ _ => blit_record_of_outside (d := d') (v := w) (by omega))
    (fun _ => used_congr fun k _ _ => blit_record_of_outside (d := d') (v := w) (by omega))
    (fun _ hi s => slots_commit hresized.owned hlt hi s)).2 b
  have hself : inodeAt (blit d' (11264 + 42 * idx) 42 w.encode) idx = w := inodeAt_blit_self _ _ _
  have hview := view_inodeAt (blit d' (11264 + 42 * idx) 42 w.encode) idx
  rw [hself] at hview
  rw [hview] at hcommit
  refine ⟨hself, ?_, fun b => (hcommit b).trans (hresize b)⟩
  rw [hself]
  exact h.trans (hresized.trans (Stays.commit hresized.owned hidx'))

theorem Accounted.holder (h : Accounted d) (hb : Used d b) : ∃ k, Refs d (inodeAt d) k b := by
  by_contra hnone
  exact h.kept b ⟨hb, fun k hk => hnone ⟨k, hk⟩⟩

theorem Accounted.maps_iff (h : Accounted d) (h' : Accounted d') (hidx : Live d idx)
    (hstays : Stays idx d (inodeAt d idx) d' (inodeAt d' idx)) (b : Nat) :
    Maps d' idx b ↔ Maps d idx b ∨ (Used d' b ∧ ¬Used d b) := by
  have hidx' := (hstays.live idx).mpr hidx
  constructor
  · rintro ⟨hne, s, hs⟩
    have hused : Used d' b := h'.owned.used_of_ref (idx, s) b ⟨hidx', hs, hne⟩
    by_cases hold : Used d b
    · obtain ⟨⟨i, s'⟩, hi, hs', -⟩ := h.holder hold
      by_cases hother : i = idx
      · exact .inl ⟨hne, s', hother ▸ hs'⟩
      · rw [← hstays.slots_other hother hi] at hs'
        have hsame := h'.owned.holder_unique (i, s') (idx, s) b ⟨(hstays.live i).mpr hi, hs', hne⟩
          ⟨hidx', hs, hne⟩
        exact absurd (Prod.mk.inj hsame).1 hother
    · exact .inr ⟨hused, hold⟩
  · rintro (⟨hne, s, hs⟩ | ⟨hnew, hold⟩)
    · exact ⟨hne, s, (hstays.kept s (by rwa [hs])).trans hs⟩
    · obtain ⟨⟨i, s⟩, hi, hs, hne⟩ := h'.holder hnew
      by_cases hother : i = idx
      · exact ⟨hne, s, hother ▸ hs⟩
      · have hi' := (hstays.live i).mp hi
        rw [hstays.slots_other hother hi'] at hs
        exact absurd (h.owned.used_of_ref (i, s) b ⟨hi', hs, hne⟩) hold

theorem lossless_iff_accounted (h : Accounted d) (hidx : Live d idx)
    (hstays : Stays idx d (inodeAt d idx) d' (inodeAt d' idx)) (hsize : (inodeAt d' idx).size.toNat =
      if written (layout total) d idx buffer size offset = 0 then (inodeAt d idx).size.toNat
      else max (inodeAt d idx).size.toNat (offset + written (layout total) d idx buffer size offset)) :
    Lossless total d idx buffer size offset d' ↔ Accounted d' :=
  ⟨Lossless.accounted, fun h' => ⟨h', h.maps_iff h' hidx hstays, hsize⟩⟩

structure Phase (total idx : Nat) (d : Mem) (v : Inode) (size offset : Nat) (s : WriteState) : Prop where
  busy : s.remain ≠ 0 → Going total idx d v size offset s ∨ Strayed total idx d v size offset s
  done : s.remain = 0 → (Moving idx d v size offset s ∧
    (∀ b, LostBlock s.disk (view s.disk idx s.inode) b → LostBlock d (view d idx v) b) ∧
      (size = 0 ∨ ¬Wastes total d v size offset)) ∨ Strayed total idx d v size offset s

theorem phase_start (h : Owned (Refs d (view d idx v)) (Used d)) (total size offset : Nat) :
    Phase total idx d v size offset { remain := size, curr := offset, inode := v, disk := d } := by
  have hstart := going_start h total size offset
  exact ⟨fun _ => .inl hstart, fun hnone => .inl ⟨hstart.toMoving, hstart.kept, .inl hnone⟩⟩

theorem Going.last (h : Going total idx d v size offset s)
    (hidx : Live d idx) (hturn : Turn total idx s t phys e) (hremain : t.remain = 0) :
    (Moving idx d v size offset t ∧
      (∀ b, LostBlock t.disk (view t.disk idx t.inode) b → LostBlock d (view d idx v) b) ∧
        (size = 0 ∨ ¬Wastes total d v size offset)) ∨ Strayed total idx d v size offset t := by
  rcases h.turn hidx hturn with hstrayed | ⟨hkept, hmapped, hforgets⟩
  · exact .inr hstrayed
  refine .inl ⟨h.toMoving.again hturn, hkept, .inr ?_⟩
  obtain ⟨hoffset, hsum⟩ := h.position
  obtain ⟨hchunk, hle, hinside, -⟩ := chunkOf_bounds hturn.busy
  have hleft := hturn.remain
  rintro (hforgotten | ⟨l, hfirst, hdouble, -, hlast, hempty, -, -⟩)
  · rcases Nat.eq_or_lt_of_le hoffset with hstart | hmoved
    · exact hforgets hstart.symm hforgotten
    · exact h.not_forgets hmoved hforgotten
  · rcases lt_or_ge l (s.curr / 1024) with hbefore | hge
    · exact h.passed l hfirst hdouble hbefore hempty
    · obtain rfl : l = s.curr / 1024 := by omega
      exact hmapped hdouble hempty

theorem Phase.again (hidx : Live d idx) (hs : Phase total idx d v size offset s)
    (hbody : writeBody (layout total) buffer size s = .ok (.again t)) : Phase total idx d v size offset t := by
  have hbusy : s.remain ≠ 0 := by
    intro h0
    unfold writeBody at hbody
    rw [if_pos h0] at hbody
    cases hbody
  rcases hs.busy hbusy with hgoing | hstrayed
  · obtain ⟨phys, e, hturn⟩ := writeBody_turn hgoing.stays.owned ((hgoing.stays.live idx).mpr hidx) hbody
    exact ⟨hgoing.again hidx hturn, hgoing.last hidx hturn⟩
  · obtain ⟨phys, e, hturn⟩ := writeBody_turn hstrayed.stays.owned ((hstrayed.stays.live idx).mpr hidx) hbody
    have hlater := hstrayed.again hidx hturn
    exact ⟨fun _ => .inr hlater, fun _ => .inr hlater⟩

theorem toNat_max (a b : UInt32) : (max a b).toNat = max a.toNat b.toNat := by
  change (if a ≤ b then b else a).toNat = _
  by_cases h : a ≤ b
  · rw [if_pos h]
    exact (Nat.max_eq_right (UInt32.le_iff_toNat_le.mp h)).symm
  · rw [if_neg h]
    exact (Nat.max_eq_left (Nat.le_of_not_le fun hle => h (UInt32.le_iff_toNat_le.mpr hle))).symm

/-- The end of a write that fails: it works on its inode only, and the accounts stay in order just when it wastes no
block. -/
theorem failedWrite_ends (h : Accounted d) (hidx : Live d idx)
    (hrun : jexfsWrite (layout total) d idx buffer size offset = .ok (.error x, d')) :
    size ≠ 0 ∧ Stays idx d (inodeAt d idx) d' (inodeAt d' idx) ∧ (inodeAt d' idx).size.toNat =
        (if written (layout total) d idx buffer size offset = 0 then (inodeAt d idx).size.toNat
        else max (inodeAt d idx).size.toNat (offset + written (layout total) d idx buffer size offset)) ∧
      (Accounted d' ↔ ¬Wastes total d (inodeAt d idx) size offset) := by
  have hview : Owned (Refs d (view d idx (inodeAt d idx))) (Used d) := by
    rw [view_inodeAt]
    exact h.owned
  have hkept : ∀ b, ¬LostBlock d (view d idx (inodeAt d idx)) b := by
    rw [view_inodeAt]
    exact h.kept
  simp only [jexfsWrite, bind_eq_ok] at hrun
  obtain ⟨v, hread, ⟨r, t⟩, hloop, hend⟩ := hrun
  have hwritten : written (layout total) d idx buffer size offset = size - t.remain := by
    unfold written
    rw [hread]
    dsimp only
    rw [hloop]
  rcases readInode_cases hread with ⟨hge, -⟩ | ⟨-, -, rfl⟩
  · exact absurd hidx.1 (by omega)
  obtain ⟨s, hs, hleave⟩ := run_invariant (fun s t hs hbody => Phase.again hidx hs hbody)
    (phase_start hview total size offset) hloop
  cases r with
  | ok _ =>
    simp only [bind_eq_ok] at hend
    obtain ⟨e, -, hret⟩ := hend
    cases hret
  | error y =>
    obtain ⟨hbusy, hcurr, hremain, hcall⟩ := writeBody_error hleave
    have hphase := hs.busy hbusy
    have hmoving : Moving idx d (inodeAt d idx) size offset s := hphase.elim (·.toMoving) (·.toMoving)
    obtain ⟨hlow, hsum⟩ := hmoving.position
    have hinside := hmoving.inside
    have hidx' := (hmoving.stays.live idx).mpr hidx
    have hends := bmapAlloc_callEnd (placed_of_owned hmoving.stays.owned hidx') hcall
    have hpasses := hends.passes hmoving.stays.owned hidx'
    obtain ⟨hsub, hlost⟩ := hends.failed hmoving.stays.owned hidx'
    have hstays := hmoving.stays.trans hpasses.toStays
    refine ⟨by omega, ?_⟩
    dsimp only at hend
    by_cases hmoved : offset < t.curr
    · rw [if_pos hmoved] at hend
      simp only [bind_eq_ok] at hend
      obtain ⟨e, hwrite, hret⟩ := hend
      cases hret
      obtain ⟨hself, hfinal, hlosses⟩ := hstays.finish hidx hwrite
      refine ⟨hfinal, ?_, ?_⟩
      · rw [hself, hwritten, if_neg (by omega)]
        rw [toNat_max, hpasses.size, hmoving.fileSize, UInt32.toNat_ofNat', Nat.mod_eq_of_lt (by omega)]
        congr 1
        omega
      rcases hphase with hgoing | hstrayed
      · refine iff_of_true ⟨?_, fun b hb => ?_⟩ ?_
        · have howned := hfinal.owned
          rwa [view_inodeAt] at howned
        · exact hkept b (hgoing.kept b ((hlost b).mp ((hlosses b).mp hb)))
        · rintro (hforgets | ⟨l, hfirst, hdouble, hlast, -, hempty, hmapped, hroom⟩)
          · exact hgoing.not_forgets (by omega) hforgets
          · have hshort := hgoing.not_stray hends hfirst hdouble hlast hempty hmapped
            omega
      · refine iff_of_false (fun h' => ?_) fun hnot => hnot hstrayed.wastes
        obtain ⟨b, hb⟩ := hstrayed.lost
        exact h'.kept b ((hlosses b).mpr ((hlost b).mpr hb))
    · rw [if_neg hmoved] at hend
      cases hend
      have hgoing : Going total idx d (inodeAt d idx) size offset s :=
        hphase.resolve_right fun hstrayed => hmoved (hcurr ▸ hstrayed.moved)
      obtain ⟨hinode, hdisk⟩ := hmoving.start (by omega)
      have hrecord : inodeAt t.disk idx = inodeAt d idx := by
        have hlt := hidx.1
        exact inodeAt_congr fun k hk hk' =>
          (hpasses.table k (by omega) (by omega)).trans (hmoving.table k (by omega) (by omega))
      have hfirst : s.curr / 1024 = offset / 1024 := by
        congr 1
        omega
      rw [hinode] at hsub
      have hfinal : Stays idx d (inodeAt d idx) t.disk (inodeAt t.disk idx) := by
        rw [hrecord]
        exact hstays.forget hsub
      have hself := view_inodeAt t.disk idx
      rw [hrecord] at hself
      refine ⟨hfinal, ?_, ?_⟩
      · rw [hrecord, hwritten, if_pos (by omega)]
      have hforgets := hends
      rw [hinode, hdisk, hfirst] at hforgets
      have hforgets := hforgets.forgets_iff hview hidx hkept
      rw [hself] at hforgets
      have howned := hfinal.owned
      rw [view_inodeAt] at howned
      constructor
      · rintro h' (hforgotten | ⟨l, hfirst, hdouble, hlast, -, hempty, hmapped, hroom⟩)
        · obtain ⟨b, hb⟩ := hforgets.mpr hforgotten
          exact h'.kept b hb
        · have hshort := hgoing.not_stray hends hfirst hdouble hlast hempty hmapped
          omega
      · intro hnot
        exact ⟨howned, fun b hb => hnot (.forgotten (hforgets.mp ⟨b, hb⟩))⟩

/-- **A failing write and the blocks.** From a disk in order, a write that fails leaves the disk in order, with the
blocks that were taken, if and only if it does not waste a block. -/
theorem failedWrite_lossless_iff (h : Accounted d) (hidx : Live d idx) {x : Errno}
    (hrun : jexfsWrite (layout total) d idx buffer size offset = .ok (.error x, d')) :
    Lossless total d idx buffer size offset d' ↔ ¬Wastes total d (inodeAt d idx) size offset := by
  obtain ⟨-, hstays, hsize, hiff⟩ := failedWrite_ends h hidx hrun
  rw [lossless_iff_accounted h hidx hstays hsize, hiff]

end Failure

theorem oneFile_accounted : Accounted oneFile := by
  refine ⟨oneFile_sound.1.owned, fun b hb => ?_⟩
  have hbits : ∀ k, 3072 ≤ k → k < 11264 → oneFile k = zeroBlock k := by
    intro k hk hk'
    unfold oneFile
    rw [blit_of_lt (by omega), set_of_ne (by omega)]
  obtain ⟨-, -, hbit⟩ := (used_congr hbits).mp hb.1
  simp [blockBit, Bitmap.test, zeroBlock] at hbit

/-- On a full disk nothing is taken and nothing is wasted. -/
theorem failedWrite_lossless_iff_full : ∃ d',
    jexfsWrite (layout 54) oneFile 1 (fun _ => 7) 3 2 = .ok (.error .enospc, d') ∧
      Lossless 54 oneFile 1 (fun _ => 7) 3 2 d' := by
  have hfail : (jexfsWrite (layout 54) oneFile 1 (fun _ => 7) 3 2).map Prod.fst =
    .ok (.error .enospc) := by decide
  cases hrun : jexfsWrite (layout 54) oneFile 1 (fun _ => 7) 3 2 with
  | error e =>
    rw [hrun] at hfail
    cases hfail
  | ok p =>
    obtain ⟨r, d'⟩ := p
    rw [hrun] at hfail
    cases hfail
    refine ⟨d', rfl, (failedWrite_lossless_iff oneFile_accounted oneFile_sound.2 hrun).mpr ?_⟩
    rintro ((⟨hlow, -⟩ | ⟨hlow, -⟩) | ⟨l, -, hlow, -, hend, -⟩)
    · omega
    · omega
    · omega

/-- With one free block, a write behind the direct blocks takes it for the indirect table, fails and forgets it. -/
theorem not_lossless_table :
    ∃ d', jexfsWrite (layout 55) oneFile 1 (fun _ => 7) 1 8192 = .ok (.error .enospc, d') ∧
      Accounted oneFile ∧ Live oneFile 1 ∧ ¬Lossless 55 oneFile 1 (fun _ => 7) 1 8192 d' := by
  have hfail : (jexfsWrite (layout 55) oneFile 1 (fun _ => 7) 1 8192).map
      (fun p => (p.1, blockBit p.2 54, decide ((∀ i, (inodeAt p.2 1).directBlocks i = 0) ∧
        (inodeAt p.2 1).indirectBlock = 0 ∧ (inodeAt p.2 1).doubleIndirect = 0))) =
        .ok (.error .enospc, true, true) := by decide
  cases hrun : jexfsWrite (layout 55) oneFile 1 (fun _ => 7) 1 8192 with
  | error e =>
    rw [hrun] at hfail
    cases hfail
  | ok p =>
    obtain ⟨r, d'⟩ := p
    rw [hrun] at hfail
    simp only [Except.map, Except.ok.injEq, Prod.mk.injEq, decide_eq_true_iff] at hfail
    obtain ⟨rfl, hbit, hdirect, hindirect, hdouble⟩ := hfail
    refine ⟨d', rfl, oneFile_accounted, oneFile_sound.2, fun hlossless => ?_⟩
    have hbefore : ¬Used oneFile 54 := by
      rintro ⟨-, -, hold⟩
      revert hold
      decide
    obtain ⟨-, s, hs⟩ := (hlossless.maps 54).mpr (.inr ⟨⟨by decide, by decide, hbit⟩, hbefore⟩)
    have hempty := empty_of_pointers hdirect hindirect hdouble d' s
    rw [hs] at hempty
    cases hempty

end JexOs.JexFs
