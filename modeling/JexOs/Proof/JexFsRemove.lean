import JexOs.Proof.JexFsOps

/-!
# Renaming and removing

`jexfs_rename` edits an entry or enters a new one, and `jexfs_remove` clears the bits of the blocks table by
table; both leave the accounting sound.
-/

namespace JexOs.JexFs

open ByteMem Ownership Loop List

section Edit

variable {c : Prop} {total idx : Nat} {d d' : Mem}

theorem edit_works {lb : Nat} (buf : Mem) (h : Sound d (inodeAt d)) (hidx : Live d idx)
    (hne : jexfsBmap d (inodeAt d idx) lb ≠ 0) :
    let d' := writeBlock d (jexfsBmap d (inodeAt d idx) lb) buf
    Works c idx d (inodeAt d idx) d' (inodeAt d' idx) := by
  have hview : Sound d (view d idx (inodeAt d idx)) := by rwa [view_inodeAt]
  have hge := (hview.mapped hidx hne).2.2.1.1
  have hlt := hidx.1
  have hrec : inodeAt (writeBlock d (jexfsBmap d (inodeAt d idx) lb) buf) idx = inodeAt d idx :=
    inodeAt_congr fun k _ _ => writeBlock_of_ne (by omega)
  dsimp only
  rw [hrec]
  exact Works.write hview hidx hge (fun k _ hk => writeBlock_of_ne hk)
    fun i s hi heq => hview.mapped_held hidx hne hi heq

def deleteEntry (d : Mem) (phys bo : Nat) : Mem :=
  writeBlock d phys (store16 (readBlock d phys) bo 0)

def restoredEntry (d : Mem) (phys bo : Nat) (oldName : Name) : Mem :=
  blit (store16 (store16 (store16 (readBlock d phys) bo 0) bo (load16 (readBlock d phys) bo)) (bo + 2)
    (nameLen oldName)) (bo + 5) (nameLen oldName) fun k => oldName.getD k 0

theorem rename_cases {fs fs' : Fs} {oldName newName : Name} {r : Ret Nat}
    (hsb : fs.sb = layout total) (hcwd : Live fs.disk fs.cwd)
    (hrun : jexfsRename fs oldName newName = .ok (r, fs')) :
    (searchDir fs.disk (inodeAt fs.disk fs.cwd) oldName = .ok none ∧ r = .error .enoent ∧ fs' = fs) ∨
      ∃ phys bo, searchDir fs.disk (inodeAt fs.disk fs.cwd) oldName = .ok (some (phys, bo)) ∧
        ((nameLen newName ≤ nameLen oldName ∧ r = .ok 0 ∧ fs' = { fs with
            disk := writeBlock fs.disk phys
              (blit (store16 (readBlock fs.disk phys) (bo + 2) (nameLen newName)) (bo + 5)
                (nameLen newName) fun k => newName.getD k 0) }) ∨
          (nameLen oldName < nameLen newName ∧ ∃ a d',
            jexfsAddDirent (layout total) (deleteEntry fs.disk phys bo) fs.cwd
              (load16 (readBlock fs.disk phys) bo) newName direntFile = .ok (a, d') ∧
            ((a = .ok () ∧ r = .ok 0 ∧ fs' = { fs with disk := d' }) ∨
              ∃ e, a = .error e ∧ r = .error e ∧ fs' = { fs with
                disk := writeBlock d' phys (restoredEntry fs.disk phys bo oldName) }))) := by
  obtain ⟨sb, d, cwd⟩ := fs
  subst hsb
  simp only [jexfsRename, bind_eq_ok] at hrun
  obtain ⟨di, hread, place, hsearch, hrun⟩ := hrun
  rcases readInode_cases hread with ⟨hge, -⟩ | ⟨-, -, rfl⟩
  · exact absurd hcwd.1 (by dsimp only; omega)
  cases place with
  | none =>
    cases hrun
    exact .inl ⟨hsearch, rfl, rfl⟩
  | some p =>
    obtain ⟨phys, bo⟩ := p
    have hfound := searchDir_found hsearch
    have hlen : load16 (readBlock d phys) (bo + 2) = nameLen oldName := hfound.len
    refine .inr ⟨phys, bo, hsearch, ?_⟩
    dsimp only at hrun
    rw [hlen] at hrun
    split at hrun
    · rename_i hle
      cases hrun
      exact .inl ⟨hle, rfl, rfl⟩
    · simp only [bind_eq_ok] at hrun
      obtain ⟨⟨a, d'⟩, hadd, hend⟩ := hrun
      refine .inr ⟨by omega, a, d', hadd, ?_⟩
      cases a with
      | ok u =>
        cases hend
        exact .inl ⟨rfl, rfl, rfl⟩
      | error e =>
        cases hend
        exact .inr ⟨e, rfl, rfl, rfl⟩

end Edit

structure Frees (d d' : Mem) (P : Nat → Prop) : Prop where
  same : ∀ k, k < 3072 ∨ 11264 ≤ k → d' k = d k
  bits : ∀ b, b < 65536 → (blockBit d' b = true ↔ blockBit d b = true ∧ ¬(b ≠ 0 ∧ P b))

section Frees

variable {total : Nat} {d d' d'' : Mem} {P Q : Nat → Prop}

theorem Frees.refl : Frees d d fun _ => False := ⟨fun _ _ => rfl, fun _ _ => by simp⟩

theorem Frees.trans (h : Frees d d' P) (h' : Frees d' d'' Q) : Frees d d'' fun b => P b ∨ Q b :=
  { same := fun k hk => (h'.same k hk).trans (h.same k hk)
    bits := fun b hb => by
      rw [h'.bits b hb, h.bits b hb, and_assoc, ← not_or, ← and_or_left] }

theorem Frees.congr (h : Frees d d' P) (hpq : ∀ b, b ≠ 0 → b < 65536 → (P b ↔ Q b)) : Frees d d' Q :=
  { same := h.same
    bits := fun b hb => by
      rw [h.bits b hb]
      refine and_congr_right fun _ => not_congr (and_congr_right fun h0 => hpq b h0 hb) }

theorem freeBlock_frees {b : Nat} (hb : b < 65536) : Frees d (jexfsFreeBlock (layout total) d b) (· = b) := by
  by_cases h0 : b = 0
  · rw [jexfsFreeBlock, if_pos h0]
    exact Frees.refl.congr fun b' hge _ => ⟨False.elim, fun heq => by omega⟩
  · rw [freeBlock_eq h0]
    refine ⟨fun k hk => clear_of_ne (by omega), fun b' _ => ?_⟩
    rw [blockBit_clear, Bool.and_eq_true, Bool.not_eq_true', decide_eq_false_iff_not, and_comm]
    refine and_congr_right fun _ => not_congr ⟨fun heq => ⟨heq ▸ h0, heq⟩, And.right⟩

theorem foldl_frees {α : Type} {f : Mem → α → Mem} {P : α → Nat → Prop} (l : List α)
    (hf : ∀ x ∈ l, ∀ d', (∀ k, 11264 ≤ k → d' k = d k) → Frees d' (f d' x) (P x)) {e : Mem}
    (he : ∀ k, 11264 ≤ k → e k = d k) : Frees e (l.foldl f e) fun b => ∃ x ∈ l, P x b := by
  induction l generalizing e with
  | nil => exact Frees.refl.congr fun b _ _ => by simp
  | cons x xs ih =>
    have hfirst := hf x (by simp) e he
    have hrest := ih (fun y hy => hf y (by simp [hy])) (e := f e x) fun k hk => by
      rw [hfirst.same k (.inr hk), he k hk]
    exact (hfirst.trans hrest).congr fun b _ _ => by simp

theorem freeTable_frees {t : Nat} (ht : 54 ≤ t) (hhigh : t < 65536) (hd : ∀ k, 11264 ≤ k → d' k = d k) :
    Frees d' (freeTable (layout total) d' t) fun b =>
      (∃ i : Fin 512, load16 d (1024 * t + 2 * i) = b) ∨ b = t := by
  have hread : readBlock d' t = readBlock d t := by
    funext k
    exact hd _ (by omega)
  have hentries : Frees d' ((List.range 512).foldl
      (fun d i => jexfsFreeBlock (layout total) d (load16 (readBlock d' t) (2 * i))) d')
      fun b => ∃ i ∈ List.range 512, b = load16 (readBlock d' t) (2 * i) := by
    refine foldl_frees (P := fun i b => b = load16 (readBlock d' t) (2 * i)) (d := d')
      (List.range 512) (fun i _ e _ => ?_) fun _ _ => rfl
    exact freeBlock_frees (load16_lt _ _)
  refine (hentries.trans (freeBlock_frees hhigh)).congr fun b _ _ => or_congr_left ?_
  rw [hread]
  constructor
  · rintro ⟨i, hi, rfl⟩
    exact ⟨⟨i, mem_range.mp hi⟩, rfl⟩
  · rintro ⟨i, rfl⟩
    exact ⟨i, mem_range.mpr i.isLt, rfl⟩

theorem freeBlocks_frees (total : Nat) {v : Inode} (hslots : ∀ s, slotBlock d v s ≠ 0 → 54 ≤ slotBlock d v s) :
    Frees d (freeBlocks (layout total) d v) fun b => ∃ s, slotBlock d v s = b := by
  -- the three stages: direct blocks, the indirect table, the double-indirect tables
  have hdirect : Frees d ((List.finRange 8).foldl
      (fun d i => jexfsFreeBlock (layout total) d (v.directBlocks i).toNat) d)
      fun b => ∃ i ∈ List.finRange 8, b = (v.directBlocks i).toNat := by
    refine foldl_frees (P := fun i b => b = (v.directBlocks i).toNat) (d := d)
      (List.finRange 8) (fun i _ e _ => ?_) fun _ _ => rfl
    exact freeBlock_frees (UInt16.toNat_lt _)
  unfold freeBlocks
  dsimp only
  generalize (List.finRange 8).foldl (fun d i =>
    jexfsFreeBlock (layout total) d (v.directBlocks i).toNat) d = d₁ at *
  have hindirect : Frees d₁
      (if v.indirectBlock = 0 then d₁ else freeTable (layout total) d₁ v.indirectBlock.toNat)
      fun b => v.indirectBlock.toNat ≠ 0 ∧
        ((∃ i : Fin 512, load16 d (1024 * v.indirectBlock.toNat + 2 * i) = b) ∨
          b = v.indirectBlock.toNat) := by
    split
    · rename_i h0
      exact Frees.refl.congr fun b _ _ => by simp [h0]
    · rename_i hne
      have hne' : v.indirectBlock.toNat ≠ 0 := fun h0 => hne (toNat_eq_zero.mp h0)
      refine (freeTable_frees (hslots .indirect hne') (UInt16.toNat_lt _)
        fun k hk => hdirect.same k (.inr hk)).congr fun b _ _ => ?_
      simp [hne', slotBlock]
  generalize (if v.indirectBlock = 0 then d₁
    else freeTable (layout total) d₁ v.indirectBlock.toNat) = d₂ at *
  have hsame₂ : ∀ k, 11264 ≤ k → d₂ k = d k := fun k hk => by
    rw [hindirect.same k (.inr hk), hdirect.same k (.inr hk)]
  have hdouble : Frees d₂ (if v.doubleIndirect = 0 then d₂ else
      jexfsFreeBlock (layout total) ((List.range 512).foldl
        (fun d i => if load16 (readBlock d₂ v.doubleIndirect.toNat) (2 * i) = 0 then d
          else freeTable (layout total) d (load16 (readBlock d₂ v.doubleIndirect.toNat) (2 * i)))
        d₂) v.doubleIndirect.toNat)
      fun b => v.doubleIndirect.toNat ≠ 0 ∧
        ((∃ i : Fin 512, slotBlock d v (.first i) ≠ 0 ∧
          ((∃ j, slotBlock d v (.second i j) = b) ∨ b = slotBlock d v (.first i))) ∨
          b = v.doubleIndirect.toNat) := by
    split
    · rename_i h0
      exact Frees.refl.congr fun b _ _ => by simp [h0]
    · rename_i hne
      have hne' : v.doubleIndirect.toNat ≠ 0 := fun h0 => hne (toNat_eq_zero.mp h0)
      have hge : 54 ≤ v.doubleIndirect.toNat := hslots .double hne'
      have hfirst : ∀ i : Fin 512, load16 (readBlock d₂ v.doubleIndirect.toNat) (2 * i) =
          slotBlock d v (.first i) := by
        intro i
        simp only [slotBlock, if_neg hne']
        exact load16_congr fun k hk _ => hsame₂ k (by omega)
      have htables := foldl_frees (d := d) (e := d₂)
        (f := fun d i => if load16 (readBlock d₂ v.doubleIndirect.toNat) (2 * i) = 0 then d
          else freeTable (layout total) d (load16 (readBlock d₂ v.doubleIndirect.toNat) (2 * i)))
        (P := fun i b => ∃ hi : i < 512, slotBlock d v (.first ⟨i, hi⟩) ≠ 0 ∧
          ((∃ j, slotBlock d v (.second ⟨i, hi⟩ j) = b) ∨ b = slotBlock d v (.first ⟨i, hi⟩)))
        (List.range 512) (fun i hi d' hd' => ?_) hsame₂
      · refine (htables.trans (freeBlock_frees (UInt16.toNat_lt _))).congr fun b _ _ => ?_
        simp only [hne', ne_eq, not_false_eq_true, true_and]
        refine or_congr_left ⟨?_, ?_⟩
        · rintro ⟨i, -, hi, htable⟩
          exact ⟨⟨i, hi⟩, htable⟩
        · rintro ⟨i, htable⟩
          exact ⟨i, mem_range.mpr i.isLt, i.isLt, htable⟩
      · have hi' := mem_range.mp hi
        have hentry := hfirst ⟨i, hi'⟩
        rw [hentry]
        split
        · rename_i h0
          exact Frees.refl.congr fun b _ _ => by simp [h0, hi']
        · rename_i hfilled
          have hlt : slotBlock d v (.first ⟨i, hi'⟩) < 65536 := by
            rw [← hentry]
            exact load16_lt _ _
          refine (freeTable_frees (hslots _ hfilled) hlt hd').congr fun b _ _ => ?_
          have hsecond : ∀ j : Fin 512, slotBlock d v (.second ⟨i, hi'⟩ j) =
              load16 d (1024 * slotBlock d v (.first ⟨i, hi'⟩) + 2 * j) := by
            intro j
            simp only [slotBlock, if_neg hne'] at hfilled ⊢
            rw [if_neg hfilled]
          simp only [hi', hfilled, ne_eq, not_false_eq_true, true_and, exists_true_left, hsecond]
  refine ((hdirect.trans hindirect).trans hdouble).congr fun b hb _ => ⟨?_, ?_⟩
  · rintro ((⟨i, -, rfl⟩ | ⟨hne, ⟨i, rfl⟩ | rfl⟩) | ⟨hne, ⟨i, hfilled, ⟨j, hj⟩ | rfl⟩ | rfl⟩)
    · exact ⟨.direct i, rfl⟩
    · exact ⟨.entry i, by simp [slotBlock, hne]⟩
    · exact ⟨.indirect, rfl⟩
    · exact ⟨.second i j, hj⟩
    · exact ⟨.first i, rfl⟩
    · exact ⟨.double, rfl⟩
  · rintro ⟨s, rfl⟩
    cases s with
    | direct i => exact .inl (.inl ⟨i, by simp, rfl⟩)
    | indirect => exact .inl (.inr ⟨by simp only [slotBlock] at hb; omega, .inr rfl⟩)
    | entry j =>
      simp only [slotBlock] at hb ⊢
      split at hb
      · omega
      · rename_i hne
        rw [if_neg hne]
        exact .inl (.inr ⟨hne, .inl ⟨j, rfl⟩⟩)
    | double => exact .inr ⟨by simp only [slotBlock] at hb; omega, .inr rfl⟩
    | first i =>
      refine .inr ⟨?_, .inl ⟨i, by omega, .inr rfl⟩⟩
      intro h0
      simp [slotBlock, h0] at hb
    | second i j =>
      refine .inr ⟨?_, .inl ⟨i, ?_, .inl ⟨j, rfl⟩⟩⟩
      · intro h0
        simp [slotBlock, h0] at hb
      · intro h0
        have h0' := h0
        simp only [slotBlock] at h0' hb
        split at hb
        · omega
        · rename_i hne
          rw [if_neg hne] at h0'
          rw [if_pos h0'] at hb
          omega

end Frees

section Remove

variable {c : Prop} {total idx : Nat} {d d' : Mem}

def freedDisk (total : Nat) (d : Mem) (ino : Nat) : Mem :=
  Bitmap.clear (freeBlocks (layout total) d (inodeAt d ino)) (16384 + ino)

theorem freedDisk_settles (total : Nat) {ino : Nat} (h : Sound d (inodeAt d)) (hino : Live d ino) :
    Settles c (· = ino) d (freedDisk total d ino) ∧ (∀ k, 11264 ≤ k → freedDisk total d ino k = d k) ∧
      ∀ i, Live (freedDisk total d ino) i → Live d i ∧ i ≠ ino := by
  have hlt := hino.1
  have hfrees := freeBlocks_frees total (d := d) (v := inodeAt d ino) fun s hs => (h.used hino hs).1
  have hsame : ∀ k, 11264 ≤ k → freedDisk total d ino k = d k := by
    intro k hk
    unfold freedDisk
    rw [clear_of_ne (by omega), hfrees.same k (.inr hk)]
  have hbit : ∀ i, i < 1032 →
      inodeBit (freedDisk total d ino) i = (!decide (i = ino) && inodeBit d i) := by
    intro i hi
    unfold freedDisk
    rw [inodeBit_clear]
    congr 1
    exact test_congr (hfrees.same _ (by omega))
  refine ⟨release_settles h hino hbit (fun b => ?_) hsame, hsame, fun i hi => ?_⟩
  · have hused : Used (freedDisk total d ino) b ↔ Used (freeBlocks (layout total) d (inodeAt d ino)) b :=
      used_congr fun k _ _ => clear_of_ne (by omega)
    rw [hused]
    constructor
    · rintro ⟨hb, hb', hbit⟩
      obtain ⟨hset, hnone⟩ := (hfrees.bits b hb').mp hbit
      exact ⟨⟨hb, hb', hset⟩, fun s heq => hnone ⟨by omega, s, heq⟩⟩
    · rintro ⟨⟨hb, hb', hset⟩, hnone⟩
      exact ⟨hb, hb', (hfrees.bits b hb').mpr ⟨hset, fun ⟨_, s, heq⟩ => hnone s heq⟩⟩
  · obtain ⟨hlt', hset⟩ := hi
    rw [hbit i hlt', Bool.and_eq_true, Bool.not_eq_true', decide_eq_false_iff_not] at hset
    exact ⟨⟨hlt', hset.2⟩, hset.1⟩

theorem remove_cases {fs fs' : Fs} {name : Name} {r : Ret Nat} (hsb : fs.sb = layout total)
    (hcwd : Live fs.disk fs.cwd)
    (htarget : ∀ phys bo, searchDir fs.disk (inodeAt fs.disk fs.cwd) name = .ok (some (phys, bo)) →
      Live fs.disk (load16 (readBlock fs.disk phys) bo)) (hrun : jexfsRemove fs name = .ok (r, fs')) :
    (fs' = fs ∧ ∃ e, r = .error e) ∨
      ∃ phys bo, searchDir fs.disk (inodeAt fs.disk fs.cwd) name = .ok (some (phys, bo)) ∧
        r = .ok 0 ∧ fs' = { fs with
          disk := writeBlock (freedDisk total fs.disk (load16 (readBlock fs.disk phys) bo)) phys
            (store16 (readBlock fs.disk phys) bo 0) } := by
  obtain ⟨sb, d, cwd⟩ := fs
  dsimp only at hsb hcwd htarget
  subst hsb
  unfold jexfsRemove at hrun
  split at hrun
  · cases hrun
    exact .inl ⟨rfl, _, rfl⟩
  simp only [bind_eq_ok] at hrun
  obtain ⟨di, hread, place, hsearch, hrun⟩ := hrun
  rcases readInode_cases hread with ⟨hge, -⟩ | ⟨-, -, rfl⟩
  · exact absurd hcwd.1 (by omega)
  cases place with
  | none =>
    cases hrun
    exact .inl ⟨rfl, _, rfl⟩
  | some p =>
    obtain ⟨phys, bo⟩ := p
    have hino := htarget phys bo hsearch
    have hne : load16 (readBlock d phys) bo ≠ 0 := (searchDir_found hsearch).ino
    simp only [bind_eq_ok] at hrun
    obtain ⟨v, hread', d₁, hfreed, hret⟩ := hrun
    rcases readInode_cases hread' with ⟨hge, -⟩ | ⟨-, -, rfl⟩
    · exact absurd hino.1 (by omega)
    cases hret
    rw [freeInode_cases hne hfreed]
    exact .inr ⟨phys, bo, hsearch, rfl, rfl⟩

/-- The removal of the entry at offset `bo` of block `phys` changes the bits of inode `ino` and its blocks, and the
entry. -/
structure RemovedExactly (d : Mem) (phys bo ino : Nat) (d' : Mem) : Prop where
  blocks : ∀ b, b < 65536 → (blockBit d' b = true ↔
    blockBit d b = true ∧ ¬(b ≠ 0 ∧ ∃ s, slotBlock d (inodeAt d ino) s = b))
  inodes : ∀ i, i < 8192 → (inodeBit d' i = true ↔ inodeBit d i = true ∧ i ≠ ino)
  entry : load16 d' (1024 * phys + bo) = 0
  nameLength : load16 d' (1024 * phys + bo + 2) = load16 d (1024 * phys + bo + 2)
  rest : ∀ k, k < 2048 ∨ 11264 ≤ k → k < 1024 * phys + bo ∨ 1024 * phys + bo + 2 ≤ k → d' k = d k

theorem freedDisk_bits (total : Nat) {ino : Nat} (hlow : ∀ s, slotBlock d (inodeAt d ino) s ≠ 0 →
      54 ≤ slotBlock d (inodeAt d ino) s) (hino : ino < 1032) :
    (∀ b, b < 65536 → (blockBit (freedDisk total d ino) b = true ↔
      blockBit d b = true ∧ ¬(b ≠ 0 ∧ ∃ s, slotBlock d (inodeAt d ino) s = b))) ∧
    (∀ i, i < 8192 → (inodeBit (freedDisk total d ino) i = true ↔ inodeBit d i = true ∧ i ≠ ino)) ∧
    ∀ k, k < 2048 ∨ 11264 ≤ k → freedDisk total d ino k = d k := by
  have hfrees := freeBlocks_frees total hlow
  refine ⟨fun b hb => ?_, fun i hi => ?_, fun k hk => ?_⟩
  · rw [← hfrees.bits b hb]
    unfold freedDisk
    rw [blockBit_congr hb fun k hk _ => clear_of_ne (by omega)]
  · have hbit : inodeBit (freeBlocks (layout total) d (inodeAt d ino)) i = inodeBit d i :=
      test_congr (hfrees.same _ (by omega))
    unfold freedDisk
    rw [inodeBit_clear, hbit, Bool.and_eq_true, Bool.not_eq_true', decide_eq_false_iff_not, and_comm]
  · unfold freedDisk
    rw [clear_of_ne (by omega), hfrees.same k (by omega)]

/-- A removal frees the inode and its blocks, and clears the entry. -/
theorem jexfsRemove_exact {fs fs' : Fs} {name : Name} {di : Inode} {phys bo r : Nat}
    (hsb : fs.sb = layout total) (howned : Owned (Refs fs.disk (inodeAt fs.disk)) (Used fs.disk))
    (hcwd : jexfsReadInode fs.sb fs.disk fs.cwd = .ok di)
    (hdata : ∀ lb, jexfsBmap fs.disk di lb ≠ 0 → 54 ≤ jexfsBmap fs.disk di lb)
    (hsearch : searchDir fs.disk di name = .ok (some (phys, bo)))
    (hino : Live fs.disk (load16 (readBlock fs.disk phys) bo))
    (hrun : jexfsRemove fs name = .ok (.ok r, fs')) :
    RemovedExactly fs.disk phys bo (load16 (readBlock fs.disk phys) bo) fs'.disk := by
  obtain ⟨sb, d, cwd⟩ := fs
  dsimp only at hsb howned hcwd hdata hsearch hino ⊢
  subst hsb
  have hfound := searchDir_found hsearch
  have hinside := hfound.inside
  obtain ⟨hne, lb, rfl⟩ := hfound.mapped
  have hge := hdata lb hne
  generalize jexfsBmap d di lb = phys at *
  have hrest : fs'.disk = writeBlock (freedDisk total d (load16 (readBlock d phys) bo)) phys
      (store16 (readBlock d phys) bo 0) := by
    unfold jexfsRemove at hrun
    split at hrun
    · cases hrun
    rw [hcwd] at hrun
    simp only [bind_eq_ok] at hrun
    obtain ⟨di', hdi, place, hplace, hrun⟩ := hrun
    cases hdi
    rw [hsearch] at hplace
    cases hplace
    simp only [bind_eq_ok] at hrun
    obtain ⟨v, hread', d₁, hfreed, hret⟩ := hrun
    rcases readInode_cases hread' with ⟨hpast, -⟩ | ⟨-, -, rfl⟩
    · exact absurd hino.1 (by omega)
    cases hret
    rw [freeInode_cases hfound.ino hfreed]
    rfl
  obtain ⟨hblocks, hinodes, hsame⟩ := freedDisk_bits total (fun s hs => (owned_used howned hino hs).1) hino.1
  -- the block of the entry is written back as it was read, but for the inode number
  have hread : readBlock d phys = readBlock (freedDisk total d (load16 (readBlock d phys) bo)) phys := by
    funext k
    exact (hsame _ (by omega)).symm
  have hflat : fs'.disk = store16 (freedDisk total d (load16 (readBlock d phys) bo))
      (1024 * phys + bo) 0 := by
    rw [hrest, ← writeBlock_store16 (by omega), ← hread]
  rw [hflat]
  have hoff : ∀ k, k < 1024 * phys + bo ∨ 1024 * phys + bo + 2 ≤ k →
      store16 (freedDisk total d (load16 (readBlock d phys) bo)) (1024 * phys + bo) 0 k =
        freedDisk total d (load16 (readBlock d phys) bo) k := by
    intro k hk
    rcases hk with hlt | hge'
    · exact blit_of_lt hlt
    · exact blit_of_ge hge'
  refine ⟨fun b hb => ?_, fun i hi => ?_, load16_store16 (by decide), ?_, fun k hk hk' => ?_⟩
  · rw [← hblocks b hb, blockBit_congr hb fun k _ _ => hoff k (.inl (by omega))]
  · rw [← hinodes i hi]
    unfold inodeBit
    rw [test_congr (hoff _ (.inl (by omega)))]
  · rw [load16_store16_of_ne (by omega)]
    exact load16_congr fun k hk _ => hsame k (by omega)
  · rw [hoff k hk', hsame k hk]

end Remove

/-- A directory, inode 1, whose entry `..` names the empty file 2. -/
def fileBehindDots : Mem :=
  blit (Bitmap.set (newDirDisk zeroBlock 1 54 2) (16384 + 2)) (11264 + 42 * 2) 42 newFile.encode

theorem fileBehindDots_sound : Sound fileBehindDots (inodeAt fileBehindDots) ∧ Live fileBehindDots 2 := by
  obtain ⟨hdir, -, -, -⟩ := newDir_settles (c := True) 2 zero_sound
    (show 1 < 1032 by decide) (by decide)
    (show Fresh (Bitmap.set zeroBlock (16384 + 1)) 54 from ⟨by decide, by decide, by decide⟩)
  obtain ⟨hfile, hlive, -, -⟩ := newInode_settles (c := True) hdir.sound
    (show 2 < 1032 by decide) (by decide) newFile_empty
  exact ⟨hfile.sound, hlive⟩

theorem jexfsRemove_exact_dots : ∃ fs',
    jexfsRemove { sb := layout 4096, disk := fileBehindDots, cwd := 1 } [46, 46] = .ok (.ok 0, fs') ∧
      RemovedExactly fileBehindDots 54 6 (load16 (readBlock fileBehindDots 54) 6) fs'.disk := by
  obtain ⟨hsound, hlive⟩ := fileBehindDots_sound
  have hview : Sound fileBehindDots (view fileBehindDots 1 (inodeAt fileBehindDots 1)) := by
    rwa [view_inodeAt]
  have hdir : Live fileBehindDots 1 := ⟨by decide, by decide⟩
  have hnames : load16 (readBlock fileBehindDots 54) 6 = 2 := by decide
  have hino : Live fileBehindDots (load16 (readBlock fileBehindDots 54) 6) := by rwa [hnames]
  have hread : jexfsReadInode (layout 4096) fileBehindDots 1 = .ok (inodeAt fileBehindDots 1) :=
    readInode_eq (by decide) (by unfold Fits; decide)
  have hdata : ∀ lb, jexfsBmap fileBehindDots (inodeAt fileBehindDots 1) lb ≠ 0 →
      54 ≤ jexfsBmap fileBehindDots (inodeAt fileBehindDots 1) lb :=
    fun lb hne => (hview.mapped hdir hne).2.2.1.1
  have hsearch : searchDir fileBehindDots (inodeAt fileBehindDots 1) [46, 46] = .ok (some (54, 6)) := by decide
  have hok : (jexfsRemove { sb := layout 4096, disk := fileBehindDots, cwd := 1 } [46, 46]).map
      Prod.fst = .ok (.ok 0) := by decide
  cases hrun : jexfsRemove { sb := layout 4096, disk := fileBehindDots, cwd := 1 } [46, 46] with
  | error e =>
    rw [hrun] at hok
    cases hok
  | ok p =>
    obtain ⟨r, fs'⟩ := p
    rw [hrun] at hok
    cases hok
    have hsb : (Fs.mk (layout 4096) fileBehindDots 1).sb = layout 4096 := rfl
    exact ⟨fs', rfl, jexfsRemove_exact hsb hsound.owned hread hdata hsearch hino hrun⟩

/-- The first block of the free inode 1 is a bitmap block, which reads as an entry for a file with block 54. -/
def strayDirectory : Mem :=
  blit (blit (blit (Bitmap.set zeroBlock (16384 + 2)) (1024 * 3) 7
      fun k => [2, 0, 1, 0, 1, 97, 64].getD k 0)
    (11264 + 42 * 1) 42 (newDir 3).encode)
    (11264 + 42 * 2) 42 (Inode.encode { newDir 54 with mode := fileMode })

theorem strayDirectory_owned : Owned (Refs strayDirectory (inodeAt strayDirectory)) (Used strayDirectory) ∧
      ∀ i, Live strayDirectory i ↔ i = 2 := by
  have hlive : ∀ i, Live strayDirectory i ↔ i = 2 := by
    intro i
    have hbits : Live strayDirectory i ↔ Live (Bitmap.set zeroBlock (16384 + 2)) i := by
      refine live_congr fun k hk hk' => ?_
      unfold strayDirectory
      simp (disch := omega) only [blit_of_lt]
    rw [hbits]
    simp only [Live, inodeBit_set, Bool.or_eq_true, decide_eq_true_eq]
    constructor
    · rintro ⟨hlt, heq | hbit⟩
      · exact heq
      · exact absurd ⟨hlt, hbit⟩ (zero_not_live i)
    · rintro rfl
      exact ⟨by decide, .inl rfl⟩
  have hrec : inodeAt strayDirectory 2 = { newDir 54 with mode := fileMode } := inodeAt_blit_self _ _ _
  have hslots : ∀ s, slotBlock strayDirectory (inodeAt strayDirectory 2) s =
      if s = .direct 0 then 54 else 0 := by
    intro s
    rw [hrec, ← slotBlock_newDir (by decide) strayDirectory s]
    cases s <;> rfl
  have hrefs : ∀ k b, Refs strayDirectory (inodeAt strayDirectory) k b → k = (2, .direct 0) ∧ b = 54 := by
    rintro ⟨i, s⟩ b ⟨hi, heq, hb⟩
    dsimp only at hi heq
    rw [(hlive i).mp hi, hslots] at heq
    split at heq
    · rename_i hs
      rw [(hlive i).mp hi, hs]
      exact ⟨rfl, heq.symm⟩
    · exact absurd heq.symm hb
  refine ⟨⟨fun k b hk => ?_, fun k k' b hk hk' => ?_⟩, hlive⟩
  · rw [(hrefs k b hk).2]
    exact ⟨by decide, by decide, by decide⟩
  · rw [(hrefs k b hk).1, (hrefs k' b hk').1]

/-- A directory that is not allocated can lie anywhere: here the bitmap read as a directory is
written back over the freed bit. -/
theorem not_removedExactly_strayDirectory :
    Owned (Refs strayDirectory (inodeAt strayDirectory)) (Used strayDirectory) ∧
      (∀ i, Live strayDirectory i → Fits i) ∧ Live strayDirectory 2 ∧
      (inodeAt strayDirectory 2).mode &&& 7 = 1 ∧
      searchDir strayDirectory (inodeAt strayDirectory 1) [97] = .ok (some (3, 0)) ∧
      load16 (readBlock strayDirectory 3) 0 = 2 ∧
      ∃ fs', jexfsRemove { sb := layout 4096, disk := strayDirectory, cwd := 1 } [97] =
          .ok (.ok 0, fs') ∧ ¬RemovedExactly strayDirectory 3 0 2 fs'.disk := by
  obtain ⟨howned, hlive⟩ := strayDirectory_owned
  refine ⟨howned, fun i hi => ?_, (hlive 2).mpr rfl, by decide, by decide, by decide, ?_⟩
  · rw [(hlive i).mp hi]
    unfold Fits
    decide
  have hok : (jexfsRemove { sb := layout 4096, disk := strayDirectory, cwd := 1 } [97]).map
      (fun p => (p.1, blockBit p.2.disk 54)) = .ok (.ok 0, true) := by decide
  cases hrun : jexfsRemove { sb := layout 4096, disk := strayDirectory, cwd := 1 } [97] with
  | error e =>
    rw [hrun] at hok
    cases hok
  | ok p =>
    obtain ⟨r, fs'⟩ := p
    rw [hrun] at hok
    simp only [Except.map, Except.ok.injEq, Prod.mk.injEq] at hok
    obtain ⟨rfl, hbit⟩ := hok
    refine ⟨fs', rfl, fun hexact => ?_⟩
    refine ((hexact.blocks 54 (by decide)).mp hbit).2 ⟨by decide, .direct 0, ?_⟩
    have hrec : inodeAt strayDirectory 2 = { newDir 54 with mode := fileMode } := inodeAt_blit_self _ _ _
    rfl

end JexOs.JexFs
