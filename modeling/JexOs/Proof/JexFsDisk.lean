import JexOs.JexFs

/-!
# The disk as one sequence of bytes

Seen on the flat disk each change of the driver is the setting or clearing of a bit, or a `blit` of the bytes
that differ.
-/

namespace JexOs.JexFs

open ByteMem List Function Option

def layout (total : Nat) : Superblock :=
  { magic := 0x4A455846
    totalBlocks := total
    totalInodes := 1032
    inodeBitmapStart := 2
    blockBitmapStart := 3
    bitmapBlocks := 8
    inodeTableStart := 11
    inodeSize := 42
    dataStart := 54 }

def blockBit (d : Mem) (b : Nat) : Bool := Bitmap.test d (24576 + b)

def inodeBit (d : Mem) (idx : Nat) : Bool := Bitmap.test d (16384 + idx)

def inodeAt (d : Mem) (idx : Nat) : Inode := Inode.decode d (11264 + 42 * idx)

def Fits (idx : Nat) : Prop := idx * 42 % 1024 + 42 ≤ 1024

variable {n b off k i a idx start nb : Nat} {d d' m : Mem} {v : Inode}

theorem writeBlock_blit {src : Mem} (h : off + n ≤ 1024) :
    writeBlock d b (blit (readBlock d b) off n src) = blit d (1024 * b + off) n src := by
  funext k
  simp only [writeBlock, readBlock, blit]
  by_cases hblock : 1024 * b ≤ k ∧ k < 1024 * b + 1024
  · rw [if_pos hblock]
    by_cases hin : off ≤ k - 1024 * b ∧ k - 1024 * b < off + n
    · rw [if_pos hin, if_pos (by omega), Nat.sub_sub]
    · rw [if_neg hin, if_neg (by omega), Nat.add_sub_cancel' hblock.1]
  · rw [if_neg hblock, if_neg (by omega)]

theorem writeBlock_store16 {v : Nat} (h : off + 2 ≤ 1024) :
    writeBlock d b (store16 (readBlock d b) off v) = store16 d (1024 * b + off) v :=
  writeBlock_blit h

theorem writeBlock_update {x : UInt8} (h : k < 1024) : writeBlock d b (Function.update (readBlock d b) k x) =
      Function.update d (1024 * b + k) x := by
  funext a
  simp only [writeBlock, blit]
  by_cases hblock : 1024 * b ≤ a ∧ a < 1024 * b + 1024
  · rw [if_pos hblock]
    by_cases heq : a = 1024 * b + k
    · rw [heq, Nat.add_sub_cancel_left, update_self, update_self]
    · rw [update_of_ne (by omega), update_of_ne heq]
      simp only [readBlock]
      rw [Nat.add_sub_cancel' hblock.1]
  · rw [if_neg hblock, update_of_ne (by omega)]

theorem mask_block (b i : Nat) : Bitmap.mask (8192 * b + i) = Bitmap.mask i := by
  unfold Bitmap.mask
  rw [show (8192 * b + i) % 8 = i % 8 by omega]

theorem div_block (b i : Nat) : (8192 * b + i) / 8 = 1024 * b + i / 8 := by
  omega

theorem test_readBlock (d : Mem)
    (b i : Nat) : Bitmap.test (readBlock d b) i = Bitmap.test d (8192 * b + i) := by
  simp only [Bitmap.test, mask_block, div_block, readBlock]

theorem writeBlock_set (h : i < 8192) :
    writeBlock d b (Bitmap.set (readBlock d b) i) = Bitmap.set d (8192 * b + i) := by
  simp only [Bitmap.set, mask_block, div_block]
  rw [writeBlock_update (by omega)]
  rfl

theorem writeBlock_clear (h : i < 8192) :
    writeBlock d b (Bitmap.clear (readBlock d b) i) = Bitmap.clear d (8192 * b + i) := by
  simp only [Bitmap.clear, mask_block, div_block]
  rw [writeBlock_update (by omega)]
  rfl

theorem set_of_ne (h : k ≠ i / 8) : Bitmap.set d i k = d k :=
  update_of_ne h _ _

theorem clear_of_ne (h : k ≠ i / 8) : Bitmap.clear d i k = d k :=
  update_of_ne h _ _

theorem load16_readBlock (d : Mem)
    (b off : Nat) : load16 (readBlock d b) off = load16 d (1024 * b + off) := rfl

theorem tableEntry_eq (d : Mem) (b i : Nat) : tableEntry d b i = load16 d (1024 * b + 2 * i) := rfl

theorem test_congr (h : d' (i / 8) = d (i / 8)) : Bitmap.test d' i = Bitmap.test d i := by
  simp only [Bitmap.test, h]

theorem Inode.decode_congr {m' : Mem} {a' : Nat} (h : ∀ k, k < 42 → m' (a' + k) = m (a + k)) :
    Inode.decode m' a' = Inode.decode m a := by
  have h16 : ∀ k, k + 2 ≤ 42 → load16 m' (a' + k) = load16 m (a + k) := by
    intro k hk
    simp only [load16, Nat.add_assoc]
    rw [h k (by omega), h (k + 1) (by omega)]
  have h32 : ∀ k, k + 4 ≤ 42 → load32 m' (a' + k) = load32 m (a + k) := by
    intro k hk
    simp only [load32, Nat.add_assoc]
    rw [h k (by omega), h (k + 1) (by omega), h (k + 2) (by omega), h (k + 3) (by omega)]
  have hdirect : ∀ i : Fin 8, load16 m' (a' + 22 + 2 * i) = load16 m (a + 22 + 2 * i) := by
    intro i
    rw [Nat.add_assoc, Nat.add_assoc]
    exact h16 (22 + 2 * i) (by omega)
  have hmode := h16 0 (by omega)
  rw [Nat.add_zero, Nat.add_zero] at hmode
  simp only [Inode.decode, hdirect, hmode, h16 2 (by omega), h16 4 (by omega),
    h16 38 (by omega), h16 40 (by omega), h32 6 (by omega), h32 10 (by omega),
    h32 14 (by omega), h32 18 (by omega)]

theorem Inode.decode_encode (h : ∀ k, k < 42 → m (a + k) = v.encode k) : Inode.decode m a = v := by
  have h16 : ∀ (o : Nat) (x : UInt16), o + 2 ≤ 42 →
      (∀ k, k < 2 → v.encode (o + k) = byteOf x.toNat k) → load16 m (a + o) = x.toNat := by
    intro o x ho hx
    refine load16_byteOf x.toNat_lt fun k hk => ?_
    rw [Nat.add_assoc, h (o + k) (by omega), hx k hk]
  have h32 : ∀ (o : Nat) (x : UInt32), o + 4 ≤ 42 →
      (∀ k, k < 4 → v.encode (o + k) = byteOf x.toNat k) → load32 m (a + o) = x.toNat := by
    intro o x ho hx
    refine load32_byteOf x.toNat_lt fun k hk => ?_
    rw [Nat.add_assoc, h (o + k) (by omega), hx k hk]
  have hmode := h16 0 v.mode (by omega) fun k hk => by simp [Inode.encode, hk]
  have huid := h16 2 v.uid (by omega) fun k hk => by
    simp only [Inode.encode]
    rw [if_neg (by omega), if_pos (by omega), Nat.add_sub_cancel_left]
  have hgid := h16 4 v.gid (by omega) fun k hk => by
    simp [Inode.encode, show ¬4 + k < 2 by omega, show ¬4 + k < 4 by omega, show 4 + k < 6 by omega]
  have hsize := h32 6 v.size (by omega) fun k hk => by
    simp [Inode.encode, show ¬6 + k < 2 by omega, show ¬6 + k < 4 by omega,
      show ¬6 + k < 6 by omega, show 6 + k < 10 by omega]
  have hatime := h32 10 v.atime (by omega) fun k hk => by
    simp [Inode.encode, show ¬10 + k < 2 by omega, show ¬10 + k < 4 by omega,
      show ¬10 + k < 6 by omega, show ¬10 + k < 10 by omega, show 10 + k < 14 by omega]
  have hmtime := h32 14 v.mtime (by omega) fun k hk => by
    simp [Inode.encode, show ¬14 + k < 2 by omega, show ¬14 + k < 4 by omega,
      show ¬14 + k < 6 by omega, show ¬14 + k < 10 by omega, show ¬14 + k < 14 by omega,
      show 14 + k < 18 by omega]
  have hctime := h32 18 v.ctime (by omega) fun k hk => by
    simp [Inode.encode, show ¬18 + k < 2 by omega, show ¬18 + k < 4 by omega,
      show ¬18 + k < 6 by omega, show ¬18 + k < 10 by omega, show ¬18 + k < 14 by omega,
      show ¬18 + k < 18 by omega, show 18 + k < 22 by omega]
  have hdirect : ∀ i : Fin 8, load16 m (a + 22 + 2 * i) = (v.directBlocks i).toNat := by
    intro i
    rw [Nat.add_assoc]
    refine h16 (22 + 2 * i) (v.directBlocks i) (by omega) fun k hk => ?_
    have hindex : Fin.ofNat 8 ((22 + 2 * i + k - 22) / 2) = i := by
      ext
      simp only [Fin.val_ofNat]
      omega
    simp only [Inode.encode, show ¬22 + 2 * i.val + k < 2 by omega,
      show ¬22 + 2 * i.val + k < 4 by omega, show ¬22 + 2 * i.val + k < 6 by omega,
      show ¬22 + 2 * i.val + k < 10 by omega, show ¬22 + 2 * i.val + k < 14 by omega,
      show ¬22 + 2 * i.val + k < 18 by omega, show ¬22 + 2 * i.val + k < 22 by omega,
      show 22 + 2 * i.val + k < 38 by omega, if_true, if_false, hindex]
    rw [show (22 + 2 * i.val + k) % 2 = k by omega]
  have hindirect := h16 38 v.indirectBlock (by omega) fun k hk => by
    simp [Inode.encode, show ¬38 + k < 2 by omega, show ¬38 + k < 4 by omega,
      show ¬38 + k < 6 by omega, show ¬38 + k < 10 by omega, show ¬38 + k < 14 by omega,
      show ¬38 + k < 18 by omega, show ¬38 + k < 22 by omega, show ¬38 + k < 38 by omega,
      show 38 + k < 40 by omega]
  have hdouble := h16 40 v.doubleIndirect (by omega) fun k hk => by
    simp [Inode.encode, show ¬40 + k < 2 by omega, show ¬40 + k < 4 by omega,
      show ¬40 + k < 6 by omega, show ¬40 + k < 10 by omega, show ¬40 + k < 14 by omega,
      show ¬40 + k < 18 by omega, show ¬40 + k < 22 by omega, show ¬40 + k < 38 by omega,
      show ¬40 + k < 40 by omega]
  rw [Nat.add_zero] at hmode
  simp only [Inode.decode, hmode, huid, hgid, hsize, hatime, hmtime, hctime, hdirect, hindirect,
    hdouble, UInt16.ofNat_toNat, UInt32.ofNat_toNat]

theorem inodeAt_congr (h : ∀ k, 11264 + 42 * idx ≤ k → k < 11264 + 42 * idx + 42 → d' k = d k) :
    inodeAt d' idx = inodeAt d idx :=
  Inode.decode_congr fun k hk => h _ (by omega) (by omega)

theorem inodeAt_blit_self (d : Mem) (idx : Nat)
    (v : Inode) : inodeAt (blit d (11264 + 42 * idx) 42 v.encode) idx = v :=
  Inode.decode_encode fun _ hk => blit_add hk

theorem inodeAt_blit_of_ne {idx' : Nat} (h : idx' ≠ idx) :
    inodeAt (blit d (11264 + 42 * idx) 42 v.encode) idx' = inodeAt d idx' := by
  refine inodeAt_congr fun k hlow hhigh => ?_
  rcases Nat.lt_or_gt_of_ne h with hlt | hgt
  · exact blit_of_lt (by omega)
  · exact blit_of_ge (by omega)

variable {total : Nat}

section

variable (hidx : idx < 1032)

include hidx

theorem not_past_table : ¬(layout total).totalInodes ≤ idx :=
  Nat.not_le_of_lt hidx

theorem readInode_eq (hfits : Fits idx) : jexfsReadInode (layout total) d idx = .ok (inodeAt d idx) := by
  have hdecode : Inode.decode (readBlock d (11 + idx * 42 / 1024)) (idx * 42 % 1024) =
      inodeAt d idx := by
    refine Inode.decode_congr fun k hk => ?_
    simp only [readBlock]
    congr 1
    omega
  rw [jexfsReadInode, if_neg (not_past_table hidx), if_neg (Nat.not_lt_of_le hfits)]
  exact congrArg Except.ok hdecode

theorem readInode_not_fits (hfits : ¬Fits idx) :
    jexfsReadInode (layout total) d idx = .error .outOfBounds := by
  rw [jexfsReadInode, if_neg (not_past_table hidx), if_pos (Nat.lt_of_not_le hfits)]

omit hidx in
theorem readInode_cases (h : jexfsReadInode (layout total) d idx = .ok v) :
    (1032 ≤ idx ∧ v = Inode.zero) ∨ (idx < 1032 ∧ Fits idx ∧ v = inodeAt d idx) := by
  by_cases hidx : idx < 1032
  · by_cases hfits : Fits idx
    · rw [readInode_eq hidx hfits] at h
      cases h
      exact .inr ⟨hidx, hfits, rfl⟩
    · rw [readInode_not_fits hidx hfits] at h
      cases h
  · have hpast : (layout total).totalInodes ≤ idx := Nat.le_of_not_lt hidx
    rw [jexfsReadInode, if_pos hpast] at h
    cases h
    exact .inl ⟨Nat.le_of_not_lt hidx, rfl⟩

theorem writeInode_eq (hfits : Fits idx) :
    jexfsWriteInode (layout total) d idx v = .ok (blit d (11264 + 42 * idx) 42 v.encode) := by
  have hflat : writeBlock d (11 + idx * 42 / 1024)
      (blit (readBlock d (11 + idx * 42 / 1024)) (idx * 42 % 1024) 42 v.encode) =
      blit d (11264 + 42 * idx) 42 v.encode := by
    rw [writeBlock_blit hfits]
    congr 1
    omega
  rw [jexfsWriteInode, if_neg (not_past_table hidx), if_neg (Nat.not_lt_of_le hfits)]
  exact congrArg Except.ok hflat

theorem writeInode_not_fits (hfits : ¬Fits idx) :
    jexfsWriteInode (layout total) d idx v = .error .outOfBounds := by
  rw [jexfsWriteInode, if_neg (not_past_table hidx), if_pos (Nat.lt_of_not_le hfits)]

theorem writeInode_cases (h : jexfsWriteInode (layout total) d idx v = .ok d') :
    Fits idx ∧ d' = blit d (11264 + 42 * idx) 42 v.encode := by
  by_cases hfits : Fits idx
  · rw [writeInode_eq hidx hfits] at h
    cases h
    exact ⟨hfits, rfl⟩
  · rw [writeInode_not_fits hidx hfits] at h
    cases h

end

theorem find_range'_some {p : Nat → Bool}
    (h : (List.range' start n).find? p = some i) : start ≤ i ∧ i < start + n ∧ p i = true := by
  have hmem := List.mem_range'_1.mp (mem_of_find?_eq_some h)
  exact ⟨hmem.1, hmem.2, find?_some h⟩

theorem find_range'_least {p : Nat → Bool}
    (h : (List.range' start n).find? p = some i) (hb : b ∈ List.range' start n) (hp : p b = true) : i ≤ b := by
  obtain ⟨-, as, bs, happend, hbefore⟩ := find?_eq_some_iff_append.mp h
  have hsorted := pairwise_lt_range' (s := start) (n := n)
  rw [happend] at hb hsorted
  rcases mem_append.mp hb with has | hbs
  · simpa [hp] using hbefore b has
  · rcases mem_cons.mp hbs with heq | hin
    · exact heq.ge
    · exact ((pairwise_cons.mp (pairwise_append.mp hsorted).2.1).1 b hin).le

def allocStops (sb : Superblock) (d : Mem) (i : Nat) : Bool :=
  decide (sb.blockBitmapStart + i / 8192 ≥ sb.blockBitmapStart + sb.bitmapBlocks)
    || !Bitmap.test (readBlock d (sb.blockBitmapStart + i / 8192)) (i % 8192)

theorem allocStops_eq (hi : i < 65536) : allocStops (layout total) d i = !blockBit d i := by
  have hblock : ¬3 + i / 8192 ≥ 3 + 8 := by omega
  simp only [allocStops, layout]
  rw [test_readBlock, show 8192 * (3 + i / 8192) + i % 8192 = 24576 + i by omega]
  simp [hblock, blockBit]

theorem allocBlock_eq (d : Mem) : jexfsAllocBlock (layout total) d =
    ((List.range' 54 (total - 54)).find? (allocStops (layout total) d)).bind fun i =>
      if 65536 ≤ i then none else some (i, Bitmap.set d (24576 + i)) := by
  unfold jexfsAllocBlock
  dsimp only
  split
  · rename_i hnone
    rw [show (List.range' 54 (total - 54)).find? (allocStops (layout total) d) = none from hnone]
    rfl
  · rename_i i hsome
    rw [show (List.range' 54 (total - 54)).find? (allocStops (layout total) d) = some i from hsome]
    dsimp only [Option.bind]
    by_cases hi : 65536 ≤ i
    · rw [if_pos hi, if_pos]
      simp only [layout]
      omega
    · rw [if_neg hi, if_neg, writeBlock_set (Nat.mod_lt _ (by decide))]
      · simp only [layout]
        rw [show 8192 * (3 + i / 8192) + i % 8192 = 24576 + i by omega]
      · simp only [layout]
        omega

theorem allocBlock_cases (h : jexfsAllocBlock (layout total) d = some (nb, d')) :
    54 ≤ nb ∧ nb < total ∧ nb < 65536 ∧ blockBit d nb = false ∧ d' = Bitmap.set d (24576 + nb) := by
  rw [allocBlock_eq, bind_eq_some_iff] at h
  obtain ⟨i, hfind, h⟩ := h
  obtain ⟨hlow, hhigh, hstops⟩ := find_range'_some hfind
  split at h
  · cases h
  · cases h
    rw [allocStops_eq (by omega), Bool.not_eq_true'] at hstops
    exact ⟨hlow, by omega, by omega, hstops, rfl⟩

theorem allocBlock_least (h : jexfsAllocBlock (layout total) d = some (nb, d')) (hlow : 54 ≤ b)
    (htotal : b < total) (hfree : blockBit d b = false) : nb ≤ b := by
  by_cases hhigh : b < 65536
  · rw [allocBlock_eq, bind_eq_some_iff] at h
    obtain ⟨i, hfind, h⟩ := h
    split at h
    · cases h
    · cases h
      refine find_range'_least hfind (List.mem_range'_1.mpr ⟨hlow, by omega⟩) ?_
      rw [allocStops_eq hhigh, hfree]
      rfl
  · have := (allocBlock_cases h).2.2.1
    omega

theorem allocBlock_none (h : jexfsAllocBlock (layout total) d = none)
    (hlow : 54 ≤ b) (htotal : b < total) (hhigh : b < 65536) : blockBit d b = true := by
  have hmem : b ∈ List.range' 54 (total - 54) := List.mem_range'_1.mpr ⟨hlow, by omega⟩
  by_contra hbit
  have hstops : allocStops (layout total) d b = true := by
    rw [allocStops_eq hhigh]
    simpa using hbit
  rw [allocBlock_eq] at h
  cases hfind : (List.range' 54 (total - 54)).find? (allocStops (layout total) d) with
  | none => exact find?_eq_none.mp hfind b hmem hstops
  | some i =>
    have hle := find_range'_least hfind hmem hstops
    rw [hfind, bind_some, if_neg (by omega)] at h
    cases h

theorem freeBlock_eq (hb : b ≠ 0) : jexfsFreeBlock (layout total) d b = Bitmap.clear d (24576 + b) := by
  rw [jexfsFreeBlock, if_neg hb]
  refine (writeBlock_clear (Nat.mod_lt b (by decide))).trans ?_
  simp only [layout]
  congr 1
  omega

theorem allocInode_cases (h : jexfsAllocInode (layout total) d = some (i, d')) :
    1 ≤ i ∧ i < 1032 ∧ inodeBit d i = false ∧ d' = Bitmap.set d (16384 + i) := by
  simp only [jexfsAllocInode] at h
  split at h
  · cases h
  · rename_i j hfind
    cases h
    obtain ⟨hlow, hhigh, hbit⟩ := find_range'_some hfind
    have hi : i < 1032 := by
      have htotal : (layout total).totalInodes = 1032 := rfl
      omega
    rw [test_readBlock, Bool.not_eq_true'] at hbit
    exact ⟨hlow, hi, hbit, writeBlock_set (by omega)⟩

theorem freeInode_cases (hidx : idx ≠ 0)
    (h : jexfsFreeInode (layout total) d idx = .ok d') : d' = Bitmap.clear d (16384 + idx) := by
  rw [jexfsFreeInode, if_neg hidx] at h
  split at h
  · cases h
  · cases h
    exact writeBlock_clear (by omega)

/-- Writing a record and reading it back, in the terms of the table's users. -/
def WritesInode (total : Nat) (d : Mem) (idx : Nat) (v : Inode) : Prop :=
  ∃ d', jexfsWriteInode (layout total) d idx v = .ok d' ∧
    jexfsReadInode (layout total) d' idx = .ok v ∧
    (∀ idx', idx' < (layout total).totalInodes → idx' ≠ idx →
      jexfsReadInode (layout total) d' idx' = jexfsReadInode (layout total) d idx') ∧
    ∀ b, b < 11 ∨ 54 ≤ b → ∀ k, k < 1024 → readBlock d' b k = readBlock d b k

/-- Exactly the records that lie in one block of the table are written right. -/
theorem writesInode_iff (total : Nat) (d : Mem) (idx : Nat) (v : Inode)
    (hidx : idx < (layout total).totalInodes) :
    WritesInode total d idx v ↔ idx * 42 % 1024 ≤ 982 := by
  have hlt : idx < 1032 := hidx
  constructor
  · rintro ⟨d', hwrite, -⟩
    have hfits := (writeInode_cases hlt hwrite).1
    unfold Fits at hfits
    omega
  · intro hle
    have hfits : Fits idx := by
      unfold Fits
      omega
    refine ⟨_, writeInode_eq hlt hfits, ?_, ?_, ?_⟩
    · rw [readInode_eq hlt hfits, inodeAt_blit_self]
    · intro idx' hidx' hne
      by_cases hfits' : Fits idx'
      · rw [readInode_eq hidx' hfits', readInode_eq hidx' hfits', inodeAt_blit_of_ne hne]
      · rw [readInode_not_fits hidx' hfits', readInode_not_fits hidx' hfits']
    · intro b hb k hk
      rcases hb with hlow | hhigh
      · exact blit_of_lt (by omega)
      · exact blit_of_ge (by omega)

theorem writesInode_iff_first : 23 < (layout 4096).totalInodes ∧
      (WritesInode 4096 zeroBlock 23 Inode.zero ↔ 23 * 42 % 1024 ≤ 982) :=
  ⟨by decide, writesInode_iff 4096 zeroBlock 23 Inode.zero (by decide)⟩

/-- Record 24 is the first that straddles two blocks. -/
theorem not_writesInode_straddling :
    24 < (layout 4096).totalInodes ∧ ¬WritesInode 4096 zeroBlock 24 Inode.zero := by
  refine ⟨by decide, ?_⟩
  rintro ⟨d', hwrite, -⟩
  have hfits := (writeInode_cases (by decide) hwrite).1
  unfold Fits at hfits
  omega

end JexOs.JexFs
