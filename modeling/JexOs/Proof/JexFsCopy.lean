import JexOs.Proof.JexFsOps

/-!
# Reading back what was written

A write below the double-indirect blocks puts its bytes where a later read finds them, and touches
nothing else.
-/

namespace JexOs.JexFs

open ByteMem Ownership Loop List

/-- Two disks show the file of `v` and `v'` alike outside the positions `lo` to `hi`, as far as it was
mapped. -/
def SameOutside (d : Mem) (v : Inode) (lo hi : Nat) (d' : Mem) (v' : Inode) : Prop :=
  ∀ l, jexfsBmap d v l ≠ 0 → jexfsBmap d' v' l = jexfsBmap d v l ∧
    ∀ k, k < 1024 → 1024 * l + k < lo ∨ hi ≤ 1024 * l + k →
      d' (1024 * jexfsBmap d v l + k) = d (1024 * jexfsBmap d v l + k)

def Holds (d : Mem) (v : Inode) (lo hi : Nat) (buffer : Mem) : Prop :=
  ∀ p, lo ≤ p → p < hi → jexfsBmap d v (p / 1024) ≠ 0 ∧
    d (1024 * jexfsBmap d v (p / 1024) + p % 1024) = buffer (p - lo)

section Copy

variable {total idx lblock b size offset : Nat} {d d' : Mem} {v v' : Inode} {buffer : Mem} {fs : Fs}
  {name : Name}

theorem Allocates.extends (h : Allocates d v lblock b v' d')
    (howned : Owned (Refs d (view d idx v)) (Used d)) (hidx : Live d idx) : Extends idx d v d' v' := by
  cases h with
  | found _ _ => exact Extends.refl howned
  | entered hlink => exact Extends.link howned hidx hlink
  | tabled htable hlink =>
    have hfirst := Extends.link howned hidx htable
    exact hfirst.trans (Extends.link hfirst.owned ((hfirst.live idx).mpr hidx) hlink)

theorem Stays.bmap_kept (h : Stays idx d v d' v') {l : Nat} (hne : jexfsBmap d v l ≠ 0) :
    jexfsBmap d' v' l = jexfsBmap d v l := by
  by_cases hl : l < 262664
  · rw [bmap_mapSlot hl] at hne
    rw [bmap_mapSlot hl, bmap_mapSlot hl, h.kept _ hne]
  · exact absurd (bmap_past (by omega)) hne

theorem Extends.contents (h : Extends idx d v d' v') {l : Nat} (hne : jexfsBmap d v l ≠ 0) {k : Nat}
    (hk : k < 1024) : d' (1024 * jexfsBmap d v l + k) = d (1024 * jexfsBmap d v l + k) := by
  by_cases hl : l < 262664
  · rw [bmap_mapSlot hl] at hne ⊢
    exact h.data _ (mapSlot_not_table l) hne k hk
  · exact absurd (bmap_past (by omega)) hne

theorem Placed.bmap_used (h : Placed d v) {l : Nat} (hne : jexfsBmap d v l ≠ 0) :
    Used d (jexfsBmap d v l) := by
  have hl : l < 262664 := Nat.lt_of_not_le fun hge => hne (bmap_past hge)
  rw [bmap_mapSlot hl] at hne ⊢
  exact h.used _ hne

theorem Placed.bmap_inj (h : Placed d v) {l l' : Nat} (hne : jexfsBmap d v l ≠ 0)
    (heq : jexfsBmap d v l' = jexfsBmap d v l) : l' = l := by
  have hlt : ∀ {n}, jexfsBmap d v n ≠ 0 → n < 262664 := fun hn =>
    Nat.lt_of_not_le fun hge => hn (bmap_past hge)
  have hl := hlt hne
  have hl' : l' < 262664 := hlt (by rwa [heq])
  rw [bmap_mapSlot hl] at hne heq
  rw [bmap_mapSlot hl'] at heq
  exact mapSlot_inj hl' hl (h.unique _ _ hne heq)

structure Copying (idx offset size : Nat) (buffer : Mem) (d : Mem) (v : Inode) (s : WriteState) :
    Prop where
  stays : Stays idx d v s.disk s.inode
  record : ∀ k, 11264 ≤ k → k < 55296 → s.disk k = d k
  position : offset ≤ s.curr ∧ s.curr + s.remain = offset + size
  fileSize : s.inode.size = v.size
  outside : SameOutside d v offset s.curr s.disk s.inode
  ahead : ∀ l, s.curr ≤ 1024 * l → jexfsBmap s.disk s.inode l = jexfsBmap d v l
  written : Holds s.disk s.inode offset s.curr buffer

theorem blit_elsewhere {lb l bo n k : Nat} (src : Mem) (h : Placed d v) (hlb : jexfsBmap d v lb ≠ 0)
    (hk : k < 1024) (hin : bo + n ≤ 1024) (hout : l = lb → k < bo ∨ bo + n ≤ k) :
    blit d (1024 * jexfsBmap d v lb + bo) n src (1024 * jexfsBmap d v l + k) =
      d (1024 * jexfsBmap d v l + k) := by
  by_cases heq : jexfsBmap d v l = jexfsBmap d v lb
  · have hpos := hout (h.bmap_inj hlb heq)
    rcases hpos with hlt | hge
    · exact blit_of_lt (by omega)
    · exact blit_of_ge (by omega)
  · rcases Nat.lt_or_gt_of_ne heq with hlt | hgt
    · exact blit_of_lt (by omega)
    · exact blit_of_ge (by omega)

theorem writeBody_copies {s t : WriteState} (h : Owned (Refs s.disk (view s.disk idx s.inode)) (Used s.disk))
    (hidx : Live s.disk idx) (hlt : s.curr / 1024 < 520)
    (hbody : writeBody (layout total) buffer size s = .ok (.again t)) :
    ∃ e, Extends idx s.disk s.inode e t.inode ∧ jexfsBmap e t.inode (s.curr / 1024) ≠ 0 ∧
      (∀ l, l ≠ s.curr / 1024 → jexfsBmap e t.inode l = jexfsBmap s.disk s.inode l) ∧
      t.remain = s.remain - chunkOf s ∧ t.curr = (s.curr + chunkOf s) % 2 ^ 32 ∧
      t.disk = blit e (1024 * jexfsBmap e t.inode (s.curr / 1024) + s.curr % 1024) (chunkOf s)
        fun k => buffer (size - s.remain + k) := by
  unfold writeBody at hbody
  split at hbody
  · cases hbody
  split at hbody
  · cases hbody
  · rename_i phys w e hmap
    cases hbody
    have halloc := (bmapAlloc_allocates (placed_of_owned h hidx) hlt hmap).1
    have hslot : jexfsBmap e w (s.curr / 1024) = phys := by
      rw [bmap_eq hlt]
      exact (halloc.slots hlt).1
    refine ⟨e, halloc.extends h hidx, ?_, fun l hne => halloc.bmap_other hlt hne, rfl, rfl, ?_⟩
    · rw [hslot]
      exact halloc.ne_zero
    · rw [hslot]
      exact writeBlock_blit (by omega)

theorem Copying.again {s t : WriteState} (h : Copying idx offset size buffer d v s)
    (hidx : Live d idx) (hbound : offset + size ≤ 532480)
    (hbody : writeBody (layout total) buffer size s = .ok (.again t)) :
    Copying idx offset size buffer d v t := by
  obtain ⟨hlow, hsum⟩ := h.position
  have hremain : s.remain ≠ 0 := by
    intro h0
    unfold writeBody at hbody
    rw [if_pos h0] at hbody
    cases hbody
  have hidx' := (h.stays.live idx).mpr hidx
  obtain ⟨e, hextends, hne, hothers, htr, htc, htd⟩ := writeBody_copies h.stays.owned hidx' (by omega) hbody
  have hplaced : Placed e t.inode := placed_of_owned hextends.owned ((hextends.live idx).mpr hidx')
  have hchunk : 0 < chunkOf s ∧ chunkOf s ≤ s.remain ∧ s.curr % 1024 + chunkOf s ≤ 1024 := by
    unfold chunkOf
    omega
  generalize chunkOf s = n at *
  have hge := (hplaced.bmap_used hne).1
  -- the copy itself, seen as work on the inode
  have hlive := (hextends.live idx).mpr hidx'
  have hchange : ∀ k, 1024 ≤ k → k / 1024 ≠ jexfsBmap e t.inode (s.curr / 1024) →
      t.disk k = e k := by
    intro k _ hk
    rw [htd]
    rcases lt_or_ge k (1024 * jexfsBmap e t.inode (s.curr / 1024) + s.curr % 1024) with hlt | hge'
    · exact blit_of_lt hlt
    · exact blit_of_ge (by omega)
  have hheld : ∀ i s', Live e i → slotBlock e (view e idx t.inode i) s' =
      jexfsBmap e t.inode (s.curr / 1024) → i = idx ∧ ¬s'.IsTable := by
    intro i s' hi heq
    rw [bmap_mapSlot (by omega)] at heq hne
    have hunique := owned_unique hextends.owned hlive hi (mapSlot (s.curr / 1024)) s'
    rw [view_self] at hunique
    obtain ⟨rfl, rfl⟩ := hunique hne heq
    exact ⟨rfl, mapSlot_not_table _⟩
  have hcopy : Stays idx e t.inode t.disk t.inode := Stays.write hextends.owned hlive hge hchange hheld
  have hmaps : ∀ l, jexfsBmap t.disk t.inode l = jexfsBmap e t.inode l := by
    refine bmap_congr fun l => ?_
    have hslot := slots_write hge hchange hheld hlive (mapSlot l)
    rwa [view_self, view_self] at hslot
  -- a byte of a block mapped before the turn, away from the chunk
  have hbyte : ∀ l, jexfsBmap s.disk s.inode l ≠ 0 → ∀ k, k < 1024 →
      1024 * l + k < s.curr ∨ t.curr ≤ 1024 * l + k →
      t.disk (1024 * jexfsBmap s.disk s.inode l + k) = s.disk (1024 * jexfsBmap s.disk s.inode l + k) := by
    intro l hl k hk hout
    have hkept := hextends.bmap_kept hl
    have helse := blit_elsewhere (l := l) (fun k => buffer (size - s.remain + k)) hplaced hne
      hk hchunk.2.2 fun heq => by omega
    rw [hkept, hextends.contents hl hk] at helse
    rw [htd, helse]
  exact
    { stays := (h.stays.trans hextends.toStays).trans hcopy
      record := fun k hk hk' => by
        rw [htd, blit_of_lt (by omega), hextends.table k hk hk', h.record k hk hk']
      position := by omega
      fileSize := hextends.size.trans h.fileSize
      outside := by
        intro l hl
        obtain ⟨hmap, hbytes⟩ := h.outside l hl
        have hl' : jexfsBmap s.disk s.inode l ≠ 0 := by rwa [hmap]
        have hmap' := hextends.bmap_kept hl'
        refine ⟨?_, fun k hk hout => ?_⟩
        · rw [hmaps, hmap', hmap]
        · have hturn := hbyte l hl' k hk (by omega)
          rw [hmap] at hturn
          rw [hturn, hbytes k hk (by omega)]
      ahead := by
        intro l hl
        rw [hmaps, hothers l (by omega), h.ahead l (by omega)]
      written := by
        intro p hp hp'
        by_cases hold : p < s.curr
        · obtain ⟨hmapped, hvalue⟩ := h.written p hp hold
          have hmap' := hextends.bmap_kept hmapped
          rw [hmaps, hmap']
          refine ⟨hmapped, ?_⟩
          rw [hbyte _ hmapped _ (Nat.mod_lt _ (by decide)) (by omega), hvalue]
        · have hdiv : p / 1024 = s.curr / 1024 := by omega
          rw [hdiv, hmaps]
          refine ⟨hne, ?_⟩
          rw [htd, show 1024 * jexfsBmap e t.inode (s.curr / 1024) + p % 1024 =
            1024 * jexfsBmap e t.inode (s.curr / 1024) + s.curr % 1024 + (p - s.curr) by omega,
            blit_add (by omega)]
          congr 1
          omega }

def fileByte (d : Mem) (v : Inode) (p : Nat) : UInt8 :=
  d (1024 * jexfsBmap d v (p / 1024) + p % 1024)

structure Reading (d : Mem) (v : Inode) (offset size : Nat) (s : ReadState) : Prop where
  position : offset ≤ s.curr ∧ s.curr + s.remain = offset + size
  out : s.out = (List.range (s.curr - offset)).map fun k => fileByte d v (offset + k)
  mapped : ∀ p, offset ≤ p → p < s.curr → jexfsBmap d v (p / 1024) ≠ 0

theorem map_range_add (f : Nat → UInt8) (m n : Nat) :
    (List.range (m + n)).map f = (List.range m).map f ++ (List.range n).map fun k => f (m + k) := by
  rw [range_add, map_append, map_map]
  rfl

theorem readBody_step {s : ReadState} (hs : Reading d v offset size s) :
    (∃ r, readBody d v s = .ok (.leave r)) ∨
      ∃ t, readBody d v s = .ok (.again t) ∧ Reading d v offset size t ∧ t.remain < s.remain := by
  obtain ⟨hlow, hsum⟩ := hs.position
  unfold readBody
  by_cases hremain : s.remain = 0
  · rw [if_pos hremain]
    exact .inl ⟨_, rfl⟩
  rw [if_neg hremain]
  by_cases hmapped : jexfsBmap d v (s.curr / 1024) = 0
  · rw [if_pos hmapped]
    exact .inl ⟨_, rfl⟩
  rw [if_neg hmapped]
  right
  have hchunk : 0 < min (1024 - s.curr % 1024) s.remain ∧
      min (1024 - s.curr % 1024) s.remain ≤ s.remain ∧
      s.curr % 1024 + min (1024 - s.curr % 1024) s.remain ≤ 1024 := by omega
  generalize min (1024 - s.curr % 1024) s.remain = n at *
  -- positions that wrap are far behind the last block that can be mapped
  have hlast : s.curr / 1024 < 262664 := Nat.lt_of_not_le fun hge => hmapped (bmap_past hge)
  have hcurr : (s.curr + n) % 2 ^ 32 = s.curr + n := Nat.mod_eq_of_lt (by omega)
  rw [hcurr]
  refine ⟨_, rfl, ⟨?_, ?_, ?_⟩, ?_⟩
  · dsimp only
    omega
  · dsimp only
    rw [show s.curr + n - offset = s.curr - offset + n by omega, map_range_add, hs.out]
    congr 1
    refine map_congr_left fun k hk => ?_
    have hk' := mem_range.mp hk
    rw [fileByte, show offset + (s.curr - offset + k) = s.curr + k by omega,
      show (s.curr + k) / 1024 = s.curr / 1024 by omega,
      show (s.curr + k) % 1024 = s.curr % 1024 + k by omega]
    rfl
  · intro p hp hp'
    by_cases hold : p < s.curr
    · exact hs.mapped p hp hold
    · dsimp only at hp'
      rwa [show p / 1024 = s.curr / 1024 by omega]
  · dsimp only
    omega

theorem readBody_leave {s : ReadState} (hs : Reading d v offset size s) {r : List UInt8}
    (hbody : readBody d v s = .ok (.leave r)) :
    ∃ n, n ≤ size ∧ r = ((List.range n).map fun k => fileByte d v (offset + k)) ∧
      (∀ k, k < n → jexfsBmap d v ((offset + k) / 1024) ≠ 0) ∧
      (n = size ∨ jexfsBmap d v ((offset + n) / 1024) = 0) := by
  obtain ⟨hlow, hsum⟩ := hs.position
  have hback : offset + (s.curr - offset) = s.curr := by omega
  refine ⟨s.curr - offset, by omega, ?_, fun k hk => hs.mapped _ (by omega) (by omega), ?_⟩
  · rw [← hs.out]
    unfold readBody at hbody
    dsimp only at hbody
    split at hbody
    · cases hbody
      rfl
    · split at hbody
      · cases hbody
        rfl
      · cases hbody
  · rw [hback]
    unfold readBody at hbody
    dsimp only at hbody
    split at hbody
    · exact .inl (by omega)
    · split at hbody
      · exact .inr ‹_›
      · cases hbody

def readLength (v : Inode) (size offset : Nat) : Nat :=
  if v.size.toNat ≤ offset then 0
  else if v.size.toNat < (offset + size) % 2 ^ 32 then v.size.toNat - offset
  else size

theorem readLength_eq (hbound : offset + size < 2 ^ 32) :
    readLength v size offset = min size (v.size.toNat - offset) := by
  unfold readLength
  split <;> [omega; split <;> omega]

theorem read_span (total : Nat) (hidx : idx < 1032) (hfits : Fits idx) (hv : inodeAt d idx = v) :
    ∃ n, n ≤ readLength v size offset ∧ jexfsRead (layout total) d idx size offset =
        .ok ((List.range n).map fun k => fileByte d v (offset + k)) ∧
      (∀ k, k < n → jexfsBmap d v ((offset + k) / 1024) ≠ 0) ∧
      (n = readLength v size offset ∨ jexfsBmap d v ((offset + n) / 1024) = 0) := by
  unfold jexfsRead readLength
  rw [readInode_eq hidx hfits, hv]
  simp only [bind, Except.bind]
  by_cases hpast : v.size.toNat ≤ offset
  · rw [if_pos hpast, if_pos hpast]
    exact ⟨0, le_rfl, rfl, fun k hk => absurd hk (Nat.not_lt_zero k), .inl rfl⟩
  · rw [if_neg hpast, if_neg hpast]
    generalize (if v.size.toNat < (offset + size) % 2 ^ 32 then v.size.toNat - offset else size) = want
    obtain ⟨t, r, ht, hleave, hrun⟩ := run_total _
      (fun s hs => readBody_step (d := d) (v := v) hs)
      (show Reading d v offset want { remain := want, curr := offset, out := [] } from
        ⟨⟨le_rfl, rfl⟩, by simp, fun p hp hp' => absurd hp (Nat.not_le_of_lt hp')⟩)
      (Nat.lt_succ_self want)
    obtain ⟨n, hn, hr, hmapped, hend⟩ := readBody_leave ht hleave
    rw [hr] at hrun
    exact ⟨n, hn, hrun, hmapped, hend⟩

theorem read_run (total : Nat) (hidx : idx < 1032) (hfits : Fits idx) (hv : inodeAt d idx = v)
    (hbound : offset + size < 2 ^ 32) : ∃ n, n ≤ min size (v.size.toNat - offset) ∧
      jexfsRead (layout total) d idx size offset =
      .ok ((List.range n).map fun k => fileByte d v (offset + k)) ∧
      (∀ k, k < n → jexfsBmap d v ((offset + k) / 1024) ≠ 0) ∧
      (n = min size (v.size.toNat - offset) ∨ jexfsBmap d v ((offset + n) / 1024) = 0) := by
  rw [← readLength_eq hbound]
  exact read_span total hidx hfits hv

theorem read_holds (hidx : idx < 1032) (hfits : Fits idx) (hv : inodeAt d idx = v)
    (hread : Holds d v offset (offset + size) buffer)
    (hbound : offset + size < 2 ^ 32) (hend : offset + size ≤ v.size.toNat) :
    jexfsRead (layout total) d idx size offset = .ok ((List.range size).map buffer) := by
  obtain ⟨n, hn, hrun, -, hstop⟩ := read_run total hidx hfits hv hbound
  obtain rfl : n = size := by
    rcases hstop with hall | hhole
    · omega
    · refine Nat.le_antisymm (by omega) (Nat.le_of_not_lt fun hlt => ?_)
      exact (hread (offset + n) (by omega) (by omega)).1 hhole
  rw [hrun]
  congr 1
  refine map_congr_left fun k hk => ?_
  have hk' := mem_range.mp hk
  rw [fileByte, (hread (offset + k) (by omega) (by omega)).2]
  congr 1
  omega

/-- What a write of `size` bytes at `offset` has done to the disk. -/
structure Written (total idx : Nat) (buffer : Mem) (size offset : Nat) (d d' : Mem) : Prop where
  readBack : jexfsRead (layout total) d' idx size offset = .ok ((List.range size).map buffer)
  own : SameOutside d (inodeAt d idx) offset (offset + size) d' (inodeAt d' idx)
  /-- The blocks behind what is written are mapped as before, or still not. -/
  ahead : ∀ l, offset + size ≤ 1024 * l →
    jexfsBmap d' (inodeAt d' idx) l = jexfsBmap d (inodeAt d idx) l
  holds : Holds d' (inodeAt d' idx) offset (offset + size) buffer
  sized : (inodeAt d' idx).size.toNat = max (inodeAt d idx).size.toNat (offset + size)
  others : ∀ i, i ≠ idx → Live d i → inodeAt d' i = inodeAt d i ∧
    (∀ l, jexfsBmap d' (inodeAt d i) l = jexfsBmap d (inodeAt d i) l) ∧
    SameOutside d (inodeAt d i) 0 0 d' (inodeAt d' i)
  owned : Owned (Refs d' (inodeAt d')) (Used d')

theorem write_written {r : Nat} (howned : Owned (Refs d (inodeAt d)) (Used d))
    (hidx : Live d idx) (hbound : offset + size ≤ 520 * 1024)
    (hrun : jexfsWrite (layout total) d idx buffer size offset = .ok (.ok r, d')) :
      r = size ∧ Written total idx buffer size offset d d' := by
  have hlt := hidx.1
  have hview : Owned (Refs d (view d idx (inodeAt d idx))) (Used d) := by rwa [view_inodeAt]
  simp only [jexfsWrite, bind_eq_ok] at hrun
  obtain ⟨v, hread, ⟨r', t⟩, hloop, hend⟩ := hrun
  rcases readInode_cases hread with ⟨hge, -⟩ | ⟨-, hfits, rfl⟩
  · exact absurd hlt (by omega)
  obtain ⟨s, hs, hleave⟩ := run_invariant
    (fun s t hs hbody => Copying.again hs hidx (by omega) hbody)
    (show Copying idx offset size buffer d (inodeAt d idx)
      { remain := size, curr := offset, inode := inodeAt d idx, disk := d } from
      { stays := Stays.refl hview
        record := fun _ _ _ => rfl
        position := ⟨le_rfl, rfl⟩
        fileSize := rfl
        outside := fun _ _ => ⟨rfl, fun _ _ _ => rfl⟩
        ahead := fun _ _ => rfl
        written := fun p hp hp' => absurd hp (Nat.not_le_of_lt hp') }) hloop
  unfold writeBody at hleave
  split at hleave
  swap
  · split at hleave
    · cases hleave
      dsimp only at hend
      split at hend
      · simp only [bind_eq_ok] at hend
        obtain ⟨e, -, hret⟩ := hend
        cases hret
      · cases hend
    · cases hleave
  cases hleave
  obtain ⟨hlow, hsum⟩ := hs.position
  -- the copy of the inode goes to the table with the size the write gives it
  have hwrite : ∃ n : UInt32, n.toNat = max (inodeAt d idx).size.toNat (offset + size) ∧ r = size ∧
      jexfsWriteInode (layout total) t.disk idx { t.inode with size := n } = .ok d' := by
    simp only [bind_eq_ok] at hend
    obtain ⟨e, hwrite, hret⟩ := hend
    cases hret
    rw [Nat.mod_eq_of_lt (by omega), hs.fileSize] at hwrite
    split at hwrite
    · refine ⟨_, ?_, rfl, hwrite⟩
      rw [UInt32.toNat_ofNat', Nat.mod_eq_of_lt (by omega)]
      omega
    · refine ⟨(inodeAt d idx).size, by omega, rfl, ?_⟩
      rw [← hs.fileSize]
      exact hwrite
  obtain ⟨n, hn, hr, hwrite⟩ := hwrite
  obtain ⟨-, rfl⟩ := writeInode_cases hlt hwrite
  have hidx' := (hs.stays.live idx).mpr hidx
  have hresized := Stays.resize hs.stays.owned hidx' n
  have hstored := hresized.trans (Stays.commit hresized.owned hidx')
  have hall := hs.stays.trans hstored
  have hrec := inodeAt_blit_self t.disk idx { t.inode with size := n }
  have hend : ∀ l, jexfsBmap t.disk t.inode l ≠ 0 → ∀ k,
      blit t.disk (11264 + 42 * idx) 42 (Inode.encode { t.inode with size := n })
        (1024 * jexfsBmap t.disk t.inode l + k) =
      t.disk (1024 * jexfsBmap t.disk t.inode l + k) := by
    intro l hl k
    have hge := ((placed_of_owned hs.stays.owned hidx').bmap_used hl).1
    exact blit_of_ge (by omega)
  have hmaps : ∀ l, jexfsBmap (blit t.disk (11264 + 42 * idx) 42
      (Inode.encode { t.inode with size := n })) { t.inode with size := n } l =
      jexfsBmap t.disk t.inode l := by
    refine bmap_congr fun l => ?_
    have hslot := (slots_commit hresized.owned hlt hidx' (mapSlot l)).trans
      (slots_resize t.disk idx t.inode n idx (mapSlot l))
    rwa [view_self, view_self] at hslot
  generalize blit t.disk (11264 + 42 * idx) 42 (Inode.encode { t.inode with size := n }) = e at *
  have hviewed := hall.owned
  rw [← hrec, view_inodeAt] at hviewed
  have hholds : Holds e { t.inode with size := n } offset (offset + size) buffer := by
    intro p hp hp'
    obtain ⟨hmapped, hvalue⟩ := hs.written p hp (by omega)
    rw [hstored.bmap_kept hmapped, hend _ hmapped]
    exact ⟨hmapped, hvalue⟩
  refine ⟨hr, read_holds hlt hfits hrec hholds (by omega) (by dsimp only; omega), ?_, ?_,
    hrec ▸ hholds, hrec ▸ hn, fun i hne hi => ?_, hviewed⟩
  · rw [hrec]
    intro l hl
    obtain ⟨hmap, hbytes⟩ := hs.outside l hl
    have hmapped : jexfsBmap t.disk t.inode l ≠ 0 := by rwa [hmap]
    refine ⟨(hstored.bmap_kept hmapped).trans hmap, fun k hk hout => ?_⟩
    have hbyte := hend l hmapped k
    rw [hmap] at hbyte
    rw [hbyte, hbytes k hk (by omega)]
  · rw [hrec]
    intro l hl
    rw [hmaps, hs.ahead l (by omega)]
  · have hsame := hall.inodeAt_eq hi.1 hne
    have hslots := fun l => hall.slots_other hne hi (mapSlot l)
    rw [hsame] at hslots
    have hbmap := bmap_congr hslots
    refine ⟨hsame, hbmap, fun l hl => ?_⟩
    rw [hsame]
    refine ⟨hbmap l, fun k hk _ => ?_⟩
    have hl' : l < 262664 := Nat.lt_of_not_le fun hge => hl (bmap_past hge)
    rw [bmap_mapSlot hl'] at hl ⊢
    exact hall.others i hne hi _ hl k hk

def searched (fs : Fs) (name : Name) : Nat := if name.head? = some slash then 1 else fs.cwd

theorem findEntry_written {dir n : Nat} (hfile : (inodeAt d idx).isDir = false)
    (hwritten : Written total idx buffer size 0 d d') (hdir : Live d dir)
    (hfind : jexfsFindEntry (layout total) d dir name = .ok (.ok n)) :
    jexfsFindEntry (layout total) d' dir name = .ok (.ok n) := by
  unfold jexfsFindEntry at hfind
  simp only [bind_eq_ok] at hfind
  obtain ⟨di, hread, hfind⟩ := hfind
  rcases readInode_cases hread with ⟨hge, -⟩ | ⟨hlt, hfits, rfl⟩
  · exact absurd hdir.1 (by omega)
  split at hfind
  · cases hfind
  rename_i hisDir
  have hne : dir ≠ idx := by
    rintro rfl
    rw [hfile] at hisDir
    exact hisDir rfl
  obtain ⟨hsame, hbmap, hbytes⟩ := hwritten.others dir hne hdir
  have hagree : DirAgree d d' (inodeAt d dir) := ⟨hbmap, fun lb hlb k hk => (hbytes lb hlb).2 k hk (by omega)⟩
  simp only [bind_eq_ok] at hfind
  obtain ⟨found, hsearch, hret⟩ := hfind
  unfold jexfsFindEntry
  rw [readInode_eq hlt hfits, hsame]
  simp only [bind, Except.bind]
  rw [if_neg hisDir, searchDir_congr hagree, hsearch]
  cases found with
  | none => cases hret
  | some p =>
    obtain ⟨phys, bo⟩ := p
    have hfound := searchDir_found hsearch
    obtain ⟨hmapped, lb, rfl⟩ := hfound.mapped
    have hinside := hfound.inside
    have hino : load16 (readBlock d' (jexfsBmap d (inodeAt d dir) lb)) bo =
        load16 (readBlock d (jexfsBmap d (inodeAt d dir) lb)) bo :=
      load16_congr fun k _ hk => hagree.contents lb hmapped k (by omega)
    dsimp only
    rw [hino]
    exact hret

theorem open_written {n : Nat} (hsb : fs.sb = layout total) (hfile : (inodeAt fs.disk idx).isDir = false)
    (hwritten : Written total idx buffer size 0 fs.disk d') (hdir : Live fs.disk (searched fs name))
    (hopen : jexfsOpen fs name = .ok (.ok n)) : jexfsOpen { fs with disk := d' } name = .ok (.ok n) := by
  obtain ⟨sb, d, cwd⟩ := fs
  subst hsb
  unfold jexfsOpen at hopen ⊢
  cases name with
  | nil => exact hopen
  | cons c cs =>
    dsimp only at hopen ⊢
    unfold searched at hdir
    simp only [head?_cons, Option.some.injEq] at hdir
    by_cases hslash : c = slash
    · rw [if_pos hslash] at hdir hopen ⊢
      by_cases hroot : cs = []
      · rw [if_pos hroot] at hopen ⊢
        exact hopen
      · rw [if_neg hroot] at hopen ⊢
        exact findEntry_written hfile hwritten hdir hopen
    · rw [if_neg hslash] at hdir hopen ⊢
      exact findEntry_written hfile hwritten hdir hopen

/-- A write that succeeds has written its bytes and nothing else. -/
theorem jexfsWrite_written {r : Nat} (howned : Owned (Refs d (inodeAt d)) (Used d))
    (hidx : Live d idx) (_hsize : 1 ≤ size) (hbound : offset + size ≤ 520 * 1024)
    (hrun : jexfsWrite (layout total) d idx buffer size offset = .ok (.ok r, d')) :
    r = size ∧ Written total idx buffer size offset d d' :=
  write_written howned hidx hbound hrun

def oneFile : Mem := blit (Bitmap.set zeroBlock (16384 + 1)) (11264 + 42 * 1) 42 newFile.encode

theorem oneFile_sound : Sound oneFile (inodeAt oneFile) ∧ Live oneFile 1 := by
  obtain ⟨hnew, hlive, -, -⟩ := newInode_settles (c := True) zero_sound
    (show 1 < 1032 by decide) (by decide) newFile_empty
  exact ⟨hnew.sound, hlive⟩

theorem jexfsWrite_written_three :
    ∃ d', jexfsWrite (layout 4096) oneFile 1 (fun _ => 7) 3 2 = .ok (.ok 3, d') ∧
      Written 4096 1 (fun _ => 7) 3 2 oneFile d' := by
  have hok : (jexfsWrite (layout 4096) oneFile 1 (fun _ => 7) 3 2).map Prod.fst = .ok (.ok 3) := by
    decide
  cases hrun : jexfsWrite (layout 4096) oneFile 1 (fun _ => 7) 3 2 with
  | error e =>
    rw [hrun] at hok
    cases hok
  | ok p =>
    obtain ⟨r, d'⟩ := p
    rw [hrun] at hok
    cases hok
    exact ⟨d', rfl, (jexfsWrite_written oneFile_sound.1.owned oneFile_sound.2 (by decide) (by decide) hrun).2⟩

end Copy

end JexOs.JexFs
