import JexOs.Proof.JexFsCopy

/-!
# The sizes that reads and writes go by

A read is cut to the size of the file by a sum of 32 bits, which may wrap. A write fails behind the last block
that can be mapped, before its position wraps.
-/

namespace JexOs.JexFs

open ByteMem Loop List

section Bounds

variable {total idx lblock size offset nb : Nat} {d d' d'' : Mem} {v v' : Inode} {buffer : Mem}

def OnlyFills (d d' : Mem) : Prop :=
  ∀ p, 11264 ≤ p → p + 2 ≤ 55296 → p % 2 = 0 → load16 d' p = load16 d p ∨ load16 d p = 0

theorem OnlyFills.of_same (h : ∀ k, 11264 ≤ k → k < 55296 → d' k = d k) : OnlyFills d d' :=
  fun _ hlow hhigh _ => .inl (load16_congr fun k hk hk' => h k (by omega) (by omega))

theorem OnlyFills.refl (d : Mem) : OnlyFills d d := OnlyFills.of_same fun _ _ _ => rfl

theorem OnlyFills.trans (h : OnlyFills d d') (h' : OnlyFills d' d'') : OnlyFills d d'' := by
  intro p hlow hhigh heven
  rcases h p hlow hhigh heven with hsame | hzero
  · rw [← hsame]
    exact h' p hlow hhigh heven
  · exact .inr hzero

theorem OnlyFills.size_le (h : OnlyFills d d') (hidx : idx < 1032) :
    (inodeAt d idx).size ≤ (inodeAt d' idx).size := by
  have hlow := h (11264 + 42 * idx + 6) (by omega) (by omega) (by omega)
  have hhigh := h (11264 + 42 * idx + 6 + 2) (by omega) (by omega) (by omega)
  have hsize : ∀ m : Mem, (inodeAt m idx).size.toNat =
      load16 m (11264 + 42 * idx + 6) + 65536 * load16 m (11264 + 42 * idx + 6 + 2) := fun m => by
    have hlt := load32_lt m (11264 + 42 * idx + 6)
    have hload : load32 m (11264 + 42 * idx + 6) =
        load16 m (11264 + 42 * idx + 6) + 65536 * load16 m (11264 + 42 * idx + 6 + 2) := by
      have hlast : 11264 + 42 * idx + 6 + 2 + 1 = 11264 + 42 * idx + 6 + 3 := rfl
      unfold load32 load16
      rw [hlast]
      omega
    rw [← hload]
    exact UInt32.toNat_ofNat_of_lt' hlt
  rw [UInt32.le_iff_toNat_le, hsize, hsize]
  omega

theorem allocBlock_fills (h : jexfsAllocBlock (layout total) d = some (nb, d')) : OnlyFills d d' := by
  obtain ⟨-, -, hhigh, -, rfl⟩ := allocBlock_cases h
  exact OnlyFills.of_same fun k hk _ => set_of_ne (by omega)

theorem zeroed_fills (h : 54 ≤ nb) : OnlyFills d (writeBlock d nb zeroBlock) :=
  OnlyFills.of_same fun k _ hk => blit_of_lt (by omega)

theorem ensureTable_fills {x t : UInt16} (h : ensureTable (layout total) d x = some (t, d')) :
    OnlyFills d d' := by
  unfold ensureTable at h
  split at h
  · cases h
    exact OnlyFills.refl _
  · split at h
    · cases h
    · rename_i halloc
      cases h
      exact (allocBlock_fills halloc).trans (zeroed_fills (allocBlock_cases halloc).1)

theorem entry_fills {b i : Nat} (hzero : load16 (readBlock d b) (2 * i) = 0)
    (hsame : ∀ k, 11264 ≤ k → k < 55296 → d' k = d k) :
    OnlyFills d (writeBlock d' b (store16 (readBlock d b) (2 * i) nb)) := by
  have hwrite : ∀ k, 1024 * b ≤ k → k < 1024 * b + 1024 →
      writeBlock d' b (store16 (readBlock d b) (2 * i) nb) k =
        store16 (readBlock d b) (2 * i) nb (k - 1024 * b) := fun k hk hk' => blit_of_mem hk hk'
  intro p hlow hhigh heven
  by_cases hentry : p = 1024 * b + 2 * i
  · right
    rw [hentry]
    exact hzero
  · left
    refine load16_congr fun k hk hk' => ?_
    rcases lt_or_ge k (1024 * b) with hlt | hge
    · rw [writeBlock, blit_of_lt hlt]
      exact hsame k (by omega) (by omega)
    · rcases lt_or_ge k (1024 * b + 1024) with hlt | hge'
      · rw [hwrite k hge hlt]
        have hout : k - 1024 * b < 2 * i ∨ 2 * i + 2 ≤ k - 1024 * b := by omega
        have hkeep : store16 (readBlock d b) (2 * i) nb (k - 1024 * b) = readBlock d b (k - 1024 * b) := by
          rcases hout with hout | hout
          · exact blit_of_lt hout
          · exact blit_of_ge hout
        rw [hkeep, readBlock, Nat.add_sub_cancel' hge]
      · rw [writeBlock, blit_of_ge hge']
        exact hsame k (by omega) (by omega)

theorem ensureSecond_fills {table i1 : Nat} {buf : Mem}
    (h : ensureSecond (layout total) d table i1 = some (buf, d')) : OnlyFills d d' := by
  unfold ensureSecond at h
  dsimp only at h
  split at h
  · rename_i hzero
    split at h
    · cases h
    · rename_i nb e halloc
      cases h
      obtain ⟨hlow, -, hhigh, -, rfl⟩ := allocBlock_cases halloc
      refine (entry_fills hzero fun k hk _ => ?_).trans (zeroed_fills hlow)
      exact set_of_ne (by omega)
  · cases h
    exact OnlyFills.refl _

theorem bmapAlloc_fills {e : Errno}
    (h : jexfsBmapAlloc (layout total) d v lblock = (.error e, v', d')) : OnlyFills d d' := by
  unfold jexfsBmapAlloc at h
  split at h
  · cases h
  · split at h
    · unfold bmapAllocDirect at h
      split at h
      · cases h
        exact OnlyFills.refl _
      · cases h
    · split at h
      · unfold bmapAllocIndirect at h
        split at h
        · cases h
          exact OnlyFills.refl _
        · rename_i htable
          dsimp only at h
          split at h
          · split at h
            · cases h
              exact ensureTable_fills htable
            · cases h
          · cases h
      · unfold bmapAllocDouble at h
        dsimp only at h
        split at h
        · cases h
          exact OnlyFills.refl _
        · split at h
          · cases h
            exact OnlyFills.refl _
          · rename_i htable
            split at h
            · cases h
              exact ensureTable_fills htable
            · rename_i hsecond
              split at h
              · split at h
                · cases h
                  exact (ensureTable_fills htable).trans (ensureSecond_fills hsecond)
                · cases h
              · cases h

theorem bmapAlloc_size (total : Nat) (d : Mem) (v : Inode) (lblock : Nat) :
    (jexfsBmapAlloc (layout total) d v lblock).2.1.size = v.size := by
  unfold jexfsBmapAlloc bmapAllocDirect bmapAllocIndirect bmapAllocDouble
  dsimp only
  repeat' split
  all_goals rfl

def mapEnd : Nat := 268967936

structure Advancing (d : Mem) (v : Inode) (size offset : Nat) (s : WriteState) : Prop where
  fileSize : s.inode.size = v.size
  position : offset ≤ s.curr ∧ s.curr + s.remain = offset + size
  mapped : s.curr = offset ∨ s.curr ≤ mapEnd
  unmoved : s.curr = offset → s.disk = d

theorem Advancing.again {s t : WriteState} (h : Advancing d v size offset s)
    (hbody : writeBody (layout total) buffer size s = .ok (.again t)) : Advancing d v size offset t := by
  unfold writeBody at hbody
  by_cases hremain : s.remain = 0
  · rw [if_pos hremain] at hbody
    cases hbody
  rw [if_neg hremain] at hbody
  have hsize := bmapAlloc_size total s.disk s.inode (s.curr / 1024)
  split at hbody
  · cases hbody
  · rename_i phys w e hmap
    cases hbody
    -- a block that is mapped is not behind the last one
    have hlast : s.curr / 1024 < 262664 := Nat.lt_of_not_le fun hge => by
      rw [bmapAlloc_efbig hge] at hmap
      cases hmap
    rw [hmap] at hsize
    have hposition := h.position
    have hend : mapEnd = 268967936 := rfl
    have hcurr : (s.curr + min (1024 - s.curr % 1024) s.remain) % 2 ^ 32 =
        s.curr + min (1024 - s.curr % 1024) s.remain := Nat.mod_eq_of_lt (by omega)
    refine ⟨hsize.trans h.fileSize, ?_, ?_, ?_⟩
    · dsimp only
      omega
    · dsimp only
      omega
    · dsimp only
      omega

theorem size_le_max (a b : UInt32) : a ≤ max a b := by
  change a ≤ if a ≤ b then b else a
  split
  · assumption
  · exact UInt32.le_refl a

theorem write_size (hidx : idx < 1032) (hoffset : offset < 2 ^ 32) {r : Ret Nat}
    (hrun : jexfsWrite (layout total) d idx buffer size offset = .ok (r, d')) :
    (inodeAt d idx).size ≤ (inodeAt d' idx).size ∧ ∀ n, r = .ok n → n = size ∧ offset + size < 2 ^ 32 ∧
        (inodeAt d' idx).size.toNat = max (inodeAt d idx).size.toNat (offset + size) := by
  simp only [jexfsWrite, bind_eq_ok] at hrun
  obtain ⟨v, hread, ⟨r', t⟩, hloop, hend⟩ := hrun
  rcases readInode_cases hread with ⟨hge, -⟩ | ⟨-, hfits, rfl⟩
  · exact absurd hidx (by omega)
  obtain ⟨s, hs, hleave⟩ := run_invariant
    (P := Advancing d (inodeAt d idx) size offset) (fun s t hs hbody => hs.again hbody)
    ⟨rfl, ⟨le_rfl, rfl⟩, .inl rfl, fun _ => rfl⟩ hloop
  have hposition := hs.position
  have hsize := bmapAlloc_size total s.disk s.inode (s.curr / 1024)
  unfold writeBody at hleave
  by_cases hremain : s.remain = 0
  · rw [if_pos hremain] at hleave
    cases hleave
    simp only [bind_eq_ok] at hend
    obtain ⟨e, hwrite, hret⟩ := hend
    cases hret
    have hmapped := hs.mapped
    have hbound : offset + size < 2 ^ 32 := by
      unfold mapEnd at hmapped
      omega
    obtain ⟨-, rfl⟩ := writeInode_cases hidx hwrite
    rw [inodeAt_blit_self, hs.fileSize, Nat.mod_eq_of_lt hbound]
    split
    · rename_i hgrows
      have hnew : (UInt32.ofNat (offset + size)).toNat = offset + size := UInt32.toNat_ofNat_of_lt' hbound
      refine ⟨?_, fun n hn => ?_⟩
      · rw [UInt32.le_iff_toNat_le, hnew]
        exact hgrows.le
      · cases hn
        exact ⟨rfl, hbound, hnew.trans (max_eq_right hgrows.le).symm⟩
    · rename_i hinside
      refine ⟨UInt32.le_of_eq hs.fileSize.symm, fun n hn => ?_⟩
      cases hn
      rw [hs.fileSize]
      exact ⟨rfl, hbound, (max_eq_left (Nat.le_of_not_lt hinside)).symm⟩
  · rw [if_neg hremain] at hleave
    split at hleave
    · rename_i e w d₁ hmap
      cases hleave
      rw [hmap] at hsize
      dsimp only at hend
      split at hend
      · simp only [bind_eq_ok] at hend
        obtain ⟨e', hwrite, hret⟩ := hend
        cases hret
        obtain ⟨-, rfl⟩ := writeInode_cases hidx hwrite
        refine ⟨?_, fun n hn => by cases hn⟩
        have hsame : w.size = (inodeAt d idx).size := hsize.trans hs.fileSize
        rw [inodeAt_blit_self, ← hsame]
        exact size_le_max w.size _
      · cases hend
        refine ⟨?_, fun n hn => by cases hn⟩
        rw [← hs.unmoved (by omega)]
        exact (bmapAlloc_fills hmap).size_le hidx
    · cases hleave

/-- The sum of `offset` and `size` wraps, and every block from `offset` to the end of the file and the one
behind it is mapped. -/
def Overreads (d : Mem) (v : Inode) (size offset : Nat) : Prop :=
  offset < v.size.toNat ∧ 2 ^ 32 ≤ offset + size ∧
    ∀ l, offset / 1024 ≤ l → l ≤ v.size.toNat / 1024 → jexfsBmap d v l ≠ 0

/-- A read lies in the file, a write does not shorten it, and one that succeeds records where it ended. -/
structure Bounded (total : Nat) (d : Mem) (idx : Nat) (buffer : Mem) (size offset : Nat) : Prop where
  read : ∃ bytes, jexfsRead (layout total) d idx size offset = .ok bytes ∧
    bytes.length ≤ min size ((inodeAt d idx).size.toNat - offset) ∧ bytes.length < 2 ^ 31
  keeps : ∀ r d', jexfsWrite (layout total) d idx buffer size offset = .ok (r, d') →
    (inodeAt d idx).size ≤ (inodeAt d' idx).size
  records : ∀ n d', jexfsWrite (layout total) d idx buffer size offset = .ok (.ok n, d') →
    n = size ∧ offset + size < 2 ^ 32 ∧
      (inodeAt d' idx).size.toNat = max (inodeAt d idx).size.toNat (offset + size)

theorem readLength_wraps (hsize : size < 2 ^ 32) (hwraps : 2 ^ 32 ≤ offset + size)
    (hinside : offset < v.size.toNat) : readLength v size offset = size := by
  unfold readLength
  rw [if_neg (by omega), if_neg (by omega)]

theorem Overreads.long (h : Overreads d v size offset) (hsize : size < 2 ^ 32) {n : Nat}
    (hstop : n = readLength v size offset ∨ jexfsBmap d v ((offset + n) / 1024) = 0) :
    v.size.toNat - offset < n := by
  obtain ⟨hinside, hwraps, hmapped⟩ := h
  have hlt := v.size.toNat_lt
  rw [readLength_wraps hsize hwraps hinside] at hstop
  rcases hstop with rfl | hhole
  · omega
  · by_contra hle
    exact hmapped ((offset + n) / 1024) (by omega) (by omega) hhole

theorem readLength_le (hsize : size < 2 ^ 32) (h : ¬Overreads d v size offset) {n : Nat}
    (hle : n ≤ readLength v size offset) (hmapped : ∀ k, k < n → jexfsBmap d v ((offset + k) / 1024) ≠ 0) :
    n ≤ min size (v.size.toNat - offset) := by
  by_cases hbound : offset + size < 2 ^ 32
  · rwa [readLength_eq hbound] at hle
  · by_cases hinside : offset < v.size.toNat
    · rw [readLength_wraps hsize (by omega) hinside] at hle
      refine le_min hle (Nat.le_of_not_lt fun hlong => h ⟨hinside, by omega, fun l hlow hhigh => ?_⟩)
      -- some position of block `l` is among those that were copied
      rcases lt_or_ge (1024 * l) offset with hbefore | hafter
      · have hl : (offset + 0) / 1024 = l := by omega
        rw [← hl]
        exact hmapped 0 (by omega)
      · have hl : (offset + (1024 * l - offset)) / 1024 = l := by omega
        rw [← hl]
        exact hmapped _ (by omega)
    · unfold readLength at hle
      rw [if_pos (by omega)] at hle
      omega

theorem read_short {n : Nat} (hmapped : ∀ k, k < n → jexfsBmap d v ((offset + k) / 1024) ≠ 0) :
    n < 2 ^ 31 := by
  by_contra hlong
  refine hmapped 268967936 (by omega) (bmap_past ?_)
  omega

theorem Overreads.not_bounded (hidx : idx < 1032) (hfits : Fits idx) (hsize : size < 2 ^ 32)
    (h : Overreads d (inodeAt d idx) size offset) : ¬Bounded total d idx buffer size offset := by
  intro hbounded
  obtain ⟨bytes, hread, hlength, -⟩ := hbounded.read
  obtain ⟨n, -, hrun, -, hstop⟩ := read_span total hidx hfits (Eq.refl (inodeAt d idx))
  rw [hrun] at hread
  cases hread
  rw [length_map, length_range] at hlength
  have hlong := h.long hsize hstop
  omega

theorem Bounded.fits (h : Bounded total d idx buffer size offset) (hidx : idx < 1032) : Fits idx := by
  obtain ⟨bytes, hread, -, -⟩ := h.read
  by_contra hcross
  have hfault : jexfsReadInode (layout total) d idx = .error .outOfBounds := by
    have hinside : ¬(layout total).totalInodes ≤ idx := not_le.mpr hidx
    unfold jexfsReadInode
    rw [if_neg hinside, if_pos (Nat.lt_of_not_le hcross)]
  unfold jexfsRead at hread
  rw [hfault] at hread
  cases hread

/-- **The sizes of reads and writes.** They are right exactly where the inode's record lies in one block, unless the
sum wraps and the blocks up to the one behind the end of the file are mapped. -/
theorem bounded_iff (hidx : idx < 1032) (hsize : size < 2 ^ 32) (hoffset : offset < 2 ^ 32) :
    Bounded total d idx buffer size offset ↔ Fits idx ∧ ¬Overreads d (inodeAt d idx) size offset := by
  refine ⟨fun hbounded => ?_, fun ⟨hfits, h⟩ => ?_⟩
  · have hfits := hbounded.fits hidx
    exact ⟨hfits, fun hover => hover.not_bounded hidx hfits hsize hbounded⟩
  obtain ⟨n, hn, hrun, hmapped, -⟩ := read_span total hidx hfits (Eq.refl (inodeAt d idx))
  refine ⟨⟨_, hrun, ?_, ?_⟩, fun r d' hwrite => ?_, fun n d' hwrite => ?_⟩
  · rw [length_map, length_range]
    exact readLength_le hsize h hn hmapped
  · rw [length_map, length_range]
    exact read_short hmapped
  · exact (write_size hidx hoffset hwrite).1
  · exact (write_size hidx hoffset hwrite).2 n rfl

end Bounds

theorem bounded_iff_three : Bounded 4096 oneFile 1 (fun _ => 7) 3 2 := by
  have hfits : Fits 1 := show 1 * 42 % 1024 + 42 ≤ 1024 by decide
  refine (bounded_iff (by decide) (by decide) (by decide)).mpr ⟨hfits, fun hover => ?_⟩
  exact absurd hover.2.1 (by decide)

def twoBytes : Mem :=
  blit zeroBlock (11264 + 42 * 1) 42
    { Inode.zero with
      mode := fileMode
      size := 2
      directBlocks := fun i => if i = 0 then 60 else 0 }.encode

/-- Asked for `2 ^ 32 - 1` bytes behind the first of the two, `jexfs_read` copies 1023. -/
theorem not_bounded_twoBytes : ¬Bounded 4096 twoBytes 1 (fun _ => 0) 4294967295 1 := by
  have hsize : (inodeAt twoBytes 1).size.toNat = 2 := by decide
  have hblock : jexfsBmap twoBytes (inodeAt twoBytes 1) 0 = 60 := by decide
  have hfits : Fits 1 := show 1 * 42 % 1024 + 42 ≤ 1024 by decide
  refine Overreads.not_bounded (by decide) hfits (by decide) ⟨?_, by decide, fun l _ hl => ?_⟩
  · decide
  · obtain rfl : l = 0 := by omega
    decide

end JexOs.JexFs
