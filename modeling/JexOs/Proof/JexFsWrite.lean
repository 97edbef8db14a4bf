import JexOs.Proof.JexFsMap

/-!
# Writing a file

However a write ends, the accounting of the blocks is sound, and no other file has changed.
-/

namespace JexOs.JexFs

open ByteMem Ownership Loop

section Write

variable {total idx size offset : Nat} {d d' : Mem} {v v' : Inode} {buffer : Mem}

def chunkOf (s : WriteState) : Nat := min (1024 - s.curr % 1024) s.remain

variable {t s : WriteState} {lblock : Nat} {r : Ret Nat} {c : Prop}

theorem writeBody_again (h : Sound s.disk (view s.disk idx s.inode)) (hidx : Live s.disk idx)
    (hbody : writeBody (layout total) buffer size s = .ok (.again t)) : s.remain ≠ 0 ∧ ∃ phys e,
      Mapped total idx (s.curr / 1024) s.disk s.inode (.ok phys) t.inode e ∧
      t.remain = s.remain - chunkOf s ∧ t.curr = (s.curr + chunkOf s) % 2 ^ 32 ∧
      t.disk = blit e (1024 * phys + s.curr % 1024) (chunkOf s) fun k => buffer (size - s.remain + k) := by
  unfold writeBody at hbody
  by_cases hremain : s.remain = 0
  · rw [if_pos hremain] at hbody
    cases hbody
  rw [if_neg hremain] at hbody
  refine ⟨hremain, ?_⟩
  split at hbody
  · cases hbody
  · rename_i phys w e hmap
    cases hbody
    have hmapped := bmapAlloc_mapped h hidx hmap
    refine ⟨phys, e, hmapped, rfl, rfl, ?_⟩
    exact writeBlock_blit (by omega)

theorem writeBody_leave {r : Ret Unit} (h : Sound s.disk (view s.disk idx s.inode)) (hidx : Live s.disk idx)
    (hbody : writeBody (layout total) buffer size s = .ok (.leave (r, t))) :
    (s.remain = 0 ∧ r = .ok () ∧ t = s) ∨
      (s.remain ≠ 0 ∧ ∃ e, r = .error e ∧ t.curr = s.curr ∧
        Mapped total idx (s.curr / 1024) s.disk s.inode (.error e) t.inode t.disk) := by
  unfold writeBody at hbody
  by_cases hremain : s.remain = 0
  · rw [if_pos hremain] at hbody
    cases hbody
    exact .inl ⟨hremain, rfl, rfl⟩
  rw [if_neg hremain] at hbody
  split at hbody
  · rename_i e w e' hmap
    cases hbody
    exact .inr ⟨hremain, e, rfl, rfl, bmapAlloc_mapped h hidx hmap⟩
  · cases hbody

theorem Mapped.works (hmapped : Mapped total idx lblock d v r v' d')
    (hc : c → freeCount total d = 0 ∨ lblock < 520) : Works c idx d v d' v' :=
  { hmapped.grows.toWorks with
    lost := by
      intro hclean b hb
      rcases hc hclean with hfull | hlt
      · obtain ⟨rfl, rfl, -⟩ := hmapped.full hfull
        exact hb
      · exact hmapped.grows.lost hlt b hb }

theorem Mapped.copy {phys a n : Nat} {src : Mem}
    (hmapped : Mapped total idx lblock d v (.ok phys) v' d') (hidx : Live d idx)
    (hc : c → freeCount total d = 0 ∨ lblock < 520) (hlow : 1024 * phys ≤ a)
    (hhigh : a + n ≤ 1024 * phys + 1024) :
    Works c idx d v (blit d' a n src) v' := by
  obtain ⟨hge, -, hheld, -⟩ := hmapped.found phys rfl
  refine (hmapped.works hc).trans ?_
  refine Works.write hmapped.grows.sound ((hmapped.grows.live idx).mpr hidx) hge (fun k _ hne => ?_) hheld
  rcases lt_or_ge k a with hlt | hge'
  · exact blit_of_lt hlt
  · exact blit_of_ge (by omega)

def KeepsTables (total : Nat) (d : Mem) (v : Inode) (size offset : Nat) : Prop :=
  freeCount total d = 0 ∨
    (offset + size ≤ 532480 ∧
      ¬(8 ≤ offset / 1024 ∧ v.indirectBlock = 0 ∧ freeCount total d = 1))

structure Writing (total idx : Nat) (d : Mem) (v : Inode) (size offset : Nat) (s : WriteState) :
    Prop where
  works : Works (KeepsTables total d v size offset) idx d v s.disk s.inode
  full : freeCount total d = 0 → freeCount total s.disk = 0 ∧ s.inode = v
  position : offset + size ≤ 532480 → offset ≤ s.curr ∧ s.curr + s.remain = offset + size
  unmoved : offset + size ≤ 532480 → s.curr = offset → s.inode = v ∧ s.disk = d
  fileSize : s.inode.size = v.size
  record : inodeAt s.disk idx = inodeAt d idx

theorem Writing.inside (h : Writing total idx d v size offset s)
    (hremain : s.remain ≠ 0) (hkeeps : KeepsTables total d v size offset) :
    freeCount total s.disk = 0 ∨ s.curr / 1024 < 520 := by
  rcases hkeeps with hfull | ⟨hbound, -⟩
  · exact .inl (h.full hfull).1
  · right
    have := h.position hbound
    omega

theorem Writing.again (h : Writing total idx d v size offset s)
    (hidx : Live d idx) (hbody : writeBody (layout total) buffer size s = .ok (.again t)) :
    Writing total idx d v size offset t := by
  have hidx' := (h.works.live idx).mpr hidx
  obtain ⟨hremain, phys, e, hmapped, htr, htc, htd⟩ := writeBody_again h.works.sound hidx' hbody
  have hchunk : 0 < chunkOf s ∧ chunkOf s ≤ s.remain ∧ s.curr % 1024 + chunkOf s ≤ 1024 := by
    unfold chunkOf
    omega
  have hge := (hmapped.found phys rfl).1
  have hstep : Works (KeepsTables total d v size offset) idx s.disk s.inode t.disk t.inode := by
    rw [htd]
    exact hmapped.copy hidx' (h.inside hremain) (by omega) (by omega)
  have hbits : ∀ k, 3072 ≤ k → k < 11264 → t.disk k = e k := by
    intro k _ hk
    rw [htd]
    exact blit_of_lt (by omega)
  exact
    { works := h.works.trans hstep
      full := by
        intro hfull
        obtain ⟨hcount, hv⟩ := h.full hfull
        obtain ⟨hv', rfl, -⟩ := hmapped.full hcount
        rw [freeCount, freeBlocksLeft_congr hbits]
        exact ⟨hcount, hv'.trans hv⟩
      position := by
        intro hbound
        have := h.position hbound
        omega
      unmoved := by
        intro hbound hcurr
        have := h.position hbound
        omega
      fileSize := hmapped.grows.size.trans h.fileSize
      record := by
        rw [← h.record]
        refine inodeAt_congr fun k hk hk' => ?_
        have hlt := hidx.1
        rw [htd, blit_of_lt (by omega), hmapped.grows.table k (by omega) (by omega)] }

theorem Writing.start (h : Sound d (view d idx v)) : Writing total idx d v size offset
      { remain := size, curr := offset, inode := v, disk := d } :=
  { works := Works.refl h
    full := fun hfull => ⟨hfull, rfl⟩
    position := fun _ => ⟨le_rfl, rfl⟩
    unmoved := fun _ _ => ⟨rfl, rfl⟩
    fileSize := rfl
    record := rfl }

theorem Works.finish {n : UInt32} (h : Works c idx d v d' v') (hidx : Live d idx)
    {e : Mem} (hwrite : jexfsWriteInode (layout total) d' idx { v' with size := n } = .ok e) :
    Works c idx d v e (inodeAt e idx) ∧ inodeAt e idx = { v' with size := n } := by
  obtain ⟨-, rfl⟩ := writeInode_cases hidx.1 hwrite
  have hresized := h.trans (Works.resize h.sound ((h.live idx).mpr hidx) n)
  have hdone := hresized.trans (Works.commit hresized.sound ((h.live idx).mpr hidx))
  rw [inodeAt_blit_self]
  exact ⟨hdone, rfl⟩

def WriteClean (total : Nat) (d : Mem) (idx size offset : Nat) : Prop :=
  size = 0 ∨ 268967936 ≤ offset ∨ KeepsTables total d (inodeAt d idx) size offset

theorem write_keepsTables (h : Sound d (inodeAt d)) (hidx : Live d idx)
    (hrun : jexfsWrite (layout total) d idx buffer size offset = .ok (r, d')) :
    Works (KeepsTables total d (inodeAt d idx) size offset) idx d (inodeAt d idx) d' (inodeAt d' idx) := by
  have hview : Sound d (view d idx (inodeAt d idx)) := by rwa [view_inodeAt]
  simp only [jexfsWrite, bind_eq_ok] at hrun
  obtain ⟨v, hread, ⟨r', t⟩, hloop, hend⟩ := hrun
  rcases readInode_cases hread with ⟨hge, -⟩ | ⟨-, hfits, rfl⟩
  · exact absurd hidx.1 (by omega)
  obtain ⟨s, hs, hleave⟩ :=
    run_invariant (fun s t hs hbody => Writing.again hs hidx hbody) (Writing.start hview) hloop
  have hidx' := (hs.works.live idx).mpr hidx
  rcases writeBody_leave hs.works.sound hidx' hleave with
    ⟨-, rfl, rfl⟩ | ⟨hremain, e, rfl, hcurr, hmapped⟩
  · simp only [bind_eq_ok] at hend
    obtain ⟨e, hwrite, hret⟩ := hend
    cases hret
    split at hwrite
    · exact (hs.works.finish hidx hwrite).1
    · exact (hs.works.finish (n := t.inode.size) hidx hwrite).1
  · have hworks := hs.works.trans (hmapped.works (hs.inside hremain))
    dsimp only at hend
    split at hend
    · simp only [bind_eq_ok] at hend
      obtain ⟨e', hwrite, hret⟩ := hend
      cases hret
      exact (hworks.finish hidx hwrite).1
    · cases hend
      have hrecord : inodeAt t.disk idx = inodeAt d idx := by
        rw [← hs.record]
        have hlt := hidx.1
        exact inodeAt_congr fun k hk hk' => hmapped.grows.table k (by omega) (by omega)
      rw [hrecord]
      refine (hworks.forget hidx).weaken fun hkeeps => ⟨hkeeps, ?_⟩
      -- the first block failed, and no table was made for it
      rcases hkeeps with hfull | ⟨hbound, hnot⟩
      · obtain ⟨hcount, hv⟩ := hs.full hfull
        exact (hmapped.full hcount).1.trans hv
      · have hposition := hs.position hbound
        obtain ⟨hv, hd⟩ := hs.unmoved hbound (by omega)
        rcases hmapped.failed e rfl with hsame | hbig | ⟨h0, hge, hone⟩
        · exact hsame.trans hv
        · omega
        · rw [hv, hd] at *
          exact absurd ⟨by omega, h0, hone⟩ hnot

theorem bmapAlloc_efbig (h : 262664 ≤ lblock) :
    jexfsBmapAlloc (layout total) d v lblock = (.error .efbig, v, d) := by
  have hbmap : jexfsBmap d v lblock = 0 := by
    unfold jexfsBmap
    rw [dif_neg (by omega), if_neg (by omega)]
    split
    · rfl
    · exact if_pos (by omega)
  unfold jexfsBmapAlloc
  rw [if_neg (by simpa using hbmap), dif_neg (by omega), if_neg (by omega)]
  exact if_pos (by omega)

theorem write_nothing (h : Sound d (inodeAt d)) (hidx : Live d idx)
    (hrun : jexfsWrite (layout total) d idx buffer 0 offset = .ok (r, d')) :
    Works True idx d (inodeAt d idx) d' (inodeAt d' idx) := by
  have hview : Sound d (view d idx (inodeAt d idx)) := by rwa [view_inodeAt]
  simp only [jexfsWrite, bind_eq_ok] at hrun
  obtain ⟨v, hread, p, hloop, hend⟩ := hrun
  rcases readInode_cases hread with ⟨hge, -⟩ | ⟨-, -, rfl⟩
  · exact absurd hidx.1 (by omega)
  cases hloop
  simp only [bind_eq_ok] at hend
  obtain ⟨e, hwrite, hret⟩ := hend
  cases hret
  split at hwrite
  · exact ((Works.refl hview).finish hidx hwrite).1
  · exact ((Works.refl hview).finish (n := (inodeAt d idx).size) hidx hwrite).1

theorem write_efbig (hoffset : 268967936 ≤ offset) (hsize : size ≠ 0)
    (hrun : jexfsWrite (layout total) d idx buffer size offset = .ok (r, d')) : d' = d := by
  simp only [jexfsWrite, bind_eq_ok] at hrun
  obtain ⟨v, -, p, hloop, hend⟩ := hrun
  have hbody : writeBody (layout total) buffer size
      { remain := size, curr := offset, inode := v, disk := d } =
      .ok (.leave (.error .efbig, { remain := size, curr := offset, inode := v, disk := d })) := by
    unfold writeBody
    rw [if_neg hsize]
    dsimp only
    rw [bmapAlloc_efbig (by omega)]
  rw [run_leave hbody] at hloop
  cases hloop
  dsimp only at hend
  rw [if_neg (by omega)] at hend
  cases hend
  rfl

theorem write_works (h : Sound d (inodeAt d)) (hidx : Live d idx)
    (hrun : jexfsWrite (layout total) d idx buffer size offset = .ok (r, d')) :
    Works (WriteClean total d idx size offset) idx d (inodeAt d idx) d' (inodeAt d' idx) :=
  { write_keepsTables h hidx hrun with
    lost := by
      rintro (rfl | hoffset | hkeeps)
      · exact (write_nothing h hidx hrun).lost trivial
      · by_cases hsize : size = 0
        · subst hsize
          exact (write_nothing h hidx hrun).lost trivial
        · obtain rfl := write_efbig hoffset hsize hrun
          exact fun b hb => hb
      · exact (write_keepsTables h hidx hrun).lost hkeeps }

end Write

end JexOs.JexFs
