import JexOs.Mkjexfs
import JexOs.Proof.JexFsOrder

/-!
# What mkjexfs writes

The image is built one store after another: the superblock, the bits of the system blocks, the root directory,
and then file after file its inode, its blocks and its entry.
-/

namespace JexOs.Mkjexfs

open ByteMem JexFs Ownership Loop List Function

/-! ## Single stores -/

section Stores

variable {imageSize : Nat} {img img' : Mem} {a n idx : Nat} {src : Mem}

theorem poke_ok (h : poke imageSize img a n src = .ok img') : img' = blit img a n src := by
  unfold poke at h
  split at h
  · cases h
    rfl
  · cases h

theorem bitmapSet_ok {start : Nat} (h : bitmapSet imageSize img start idx = .ok img') :
    img' = Bitmap.set img (8192 * start + idx) := by
  rw [poke_ok h]
  unfold Bitmap.set
  rw [mask_block, div_block, Nat.mul_comm start]
  funext k
  by_cases hk : k = 1024 * start + idx / 8
  · rw [hk, blit_of_mem le_rfl (Nat.lt_succ_self _), update_self]
  · rw [update_of_ne hk]
    rcases Nat.lt_or_gt_of_ne hk with hlt | hgt
    · exact blit_of_lt hlt
    · exact blit_of_ge hgt

theorem inodeBitmapSet_ok (h : inodeBitmapSet imageSize img idx = .ok img') :
    img' = Bitmap.set img (16384 + idx) := bitmapSet_ok h

theorem blockBitmapSet_ok (h : blockBitmapSet imageSize img idx = .ok img') :
    img' = Bitmap.set img (24576 + idx) := bitmapSet_ok h

theorem direntWrite_ok {offset inode off : Nat} {name : Name} {ft : UInt8}
    (h : direntWrite imageSize img offset inode name ft = .ok (off, img')) : off = offset + 5 + nameLen name ∧
      img' = blit img (55296 + offset) (5 + nameLen name) (dirent inode name ft) := by
  simp only [direntWrite, bind_eq_ok] at h
  obtain ⟨img₁, hpoke, hret⟩ := h
  cases hret
  exact ⟨rfl, poke_ok hpoke⟩

end Stores

/-! ## Images -/

def rootInode (size : Nat) : Inode :=
  { inodeInit dirMode with
    size := UInt32.ofNat size
    directBlocks := Function.update Inode.zero.directBlocks 0 (UInt16.ofNat dataStart) }

def Flat (v : Inode) : Prop := v.indirectBlock = 0 ∧ v.doubleIndirect = 0

/-- The image with the inodes below `n` and the blocks below `next` given out. -/
structure Packed (total n next size : Nat) (img : Mem) (es : List Entry) : Prop where
  super : ∀ k, k < 36 → img (1024 + k) = byteOf ((superblockFields total).getD (k / 4) 0) (k % 4)
  live : ∀ i, Live img i ↔ i < n
  used : ∀ b, Used img b → b < next
  root : inodeAt img 1 = rootInode size
  flat : ∀ i, i < n → Flat (inodeAt img i)
  file : ∀ i, i < n → i ≠ 1 → (inodeAt img i).isDir = false
  owned : Owned (Refs img (inodeAt img)) (Used img)
  kept : ∀ b, ¬LostBlock img (inodeAt img) b
  block : Block (readBlock img dataStart) es
  fresh : ∀ k, 1024 * next ≤ k → img k = 0
  counts : 2 ≤ n ∧ 55 ≤ next

section Packed

variable {total n next size : Nat} {img img' : Mem} {es : List Entry}

theorem slotBlock_flat {d : Mem} {v : Inode} (h : Flat v) {s : Slot} (hs : ∀ i, s ≠ .direct i) :
    slotBlock d v s = 0 := by
  cases s with
  | direct i => exact absurd rfl (hs i)
  | indirect => exact congrArg UInt16.toNat h.1
  | double => exact congrArg UInt16.toNat h.2
  | entry j => exact if_pos (congrArg UInt16.toNat h.1)
  | first i => exact if_pos (congrArg UInt16.toNat h.2)
  | second i j => exact if_pos (congrArg UInt16.toNat h.2)

theorem slotBlock_direct {d d' : Mem} {v v' : Inode} (h : Flat v) (h' : Flat v')
    (hdirect : v'.directBlocks = v.directBlocks) (s : Slot) : slotBlock d' v' s = slotBlock d v s := by
  by_cases hs : ∃ i, s = .direct i
  · obtain ⟨i, rfl⟩ := hs
    exact congrArg (fun blocks => (blocks i).toNat) hdirect
  · have hother : ∀ i, s ≠ .direct i := fun i heq => hs ⟨i, heq⟩
    rw [slotBlock_flat h hother, slotBlock_flat h' hother]

theorem Packed.enter {size' : Nat} {es' : List Entry} (h : Packed total n next size img es)
    (hsame : ∀ k, k < 11306 ∨ (11348 ≤ k ∧ k < 55296) ∨ 56320 ≤ k → img' k = img k)
    (hroot : inodeAt img' 1 = rootInode size') (hblock : Block (readBlock img' dataStart) es') :
    Packed total n next size' img' es' := by
  have hlive : ∀ i, Live img' i ↔ Live img i := fun i => live_congr fun k _ _ => hsame k (by omega)
  have hused : ∀ b, Used img' b ↔ Used img b := fun b => used_congr fun k _ _ => hsame k (by omega)
  have hrec : ∀ i, i < 1032 → i ≠ 1 → inodeAt img' i = inodeAt img i := by
    intro i hi hne
    refine inodeAt_congr fun k _ _ => hsame k ?_
    rcases Nat.lt_or_gt_of_ne hne with hlt | hgt
    · exact .inl (by omega)
    · exact .inr (.inl (by omega))
  have hn : ∀ i, i < n → i < 1032 := fun i hi => ((h.live i).mpr hi).1
  have hslots : ∀ i, Live img i → ∀ s,
      slotBlock img' (inodeAt img' i) s = slotBlock img (inodeAt img i) s := by
    intro i hi s
    have hflat := h.flat i ((h.live i).mp hi)
    by_cases hone : i = 1
    · rw [hone, h.root] at hflat ⊢
      rw [hroot]
      exact slotBlock_direct hflat ⟨rfl, rfl⟩ rfl s
    · rw [hrec i hi.1 hone]
      exact slotBlock_direct hflat hflat rfl s
  obtain ⟨howned, hlost⟩ := owned_congr h.owned hlive hused hslots
  refine
    { super := fun k hk => (hsame _ (by omega)).trans (h.super k hk)
      live := fun i => (hlive i).trans (h.live i)
      used := fun b hb => h.used b ((hused b).mp hb)
      root := hroot
      flat := fun i hi => ?_
      file := fun i hi hne => ?_
      owned := howned
      kept := fun b hb => h.kept b ((hlost b).mp hb)
      block := hblock
      fresh := fun k hk => (hsame k ?_).trans (h.fresh k hk)
      counts := h.counts }
  · by_cases hone : i = 1
    · rw [hone, hroot]
      exact ⟨rfl, rfl⟩
    · rw [hrec i (hn i hi) hone]
      exact h.flat i hi
  · rw [hrec i (hn i hi) hne]
    exact h.file i hi hne
  · have := h.counts
    omega

end Packed

/-! ## Packing a file -/

structure Copied (inode : Inode) (next : Nat) (img : Mem) (k : Nat) (s : Inode × Nat × Mem) : Prop where
  counted : s.2.1 = next + k
  record : s.1 = { inode with
    directBlocks := fun i => if i.val < k then UInt16.ofNat (next + i) else inode.directBlocks i }
  used : ∀ b, b < 65536 →
    (blockBit s.2.2 b = true ↔ blockBit img b = true ∨ (next ≤ b ∧ b < next + k))
  same : ∀ a, a < 3072 ∨ 11264 ≤ a → a < 1024 * next ∨ 1024 * (next + k) ≤ a → s.2.2 a = img a

section Files

variable {imageSize total n next size k : Nat} {img img' : Mem} {es : List Entry} {file : File}

theorem packBlocks_copied {inode : Inode} {s : Inode × Nat × Mem} (hk : k ≤ 8) (hnext : 55 ≤ next)
    (hhigh : next + k ≤ 65536)
    (hrun : (List.range k).foldlM (packBlock imageSize file) (inode, next, img) = .ok s) :
    Copied inode next img k s := by
  refine foldlM_range (P := fun i s => Copied inode next img i s) (fun i s s' hi h hbody => ?_) ?_ hrun
  · obtain ⟨v, m, d⟩ := s
    obtain ⟨hm, hv, hused, hsame⟩ := h
    dsimp only at hm hv hused hsame
    subst hm hv
    simp only [packBlock, bind_eq_ok] at hbody
    obtain ⟨d₁, hset, d₂, hcopy, hret⟩ := hbody
    cases hret
    rw [poke_ok hcopy, blockBitmapSet_ok hset]
    refine ⟨rfl, ?_, fun b hb => ?_, fun a ha ha' => ?_⟩
    · dsimp only
      congr 1
      funext j
      by_cases hj : j.val = i
      · have heq : j = Fin.ofNat 8 i := Fin.ext (by rw [Fin.val_ofNat]; omega)
        rw [heq, update_self, if_pos (by rw [← heq]; omega), ← heq, hj]
      · have hne : j ≠ Fin.ofNat 8 i := fun heq => hj (by rw [heq, Fin.val_ofNat]; omega)
        rw [update_of_ne hne]
        by_cases hlt : j.val < i
        · rw [if_pos hlt, if_pos (by omega)]
        · rw [if_neg hlt, if_neg (by omega)]
    · have hbit : blockBit (blit (Bitmap.set d (24576 + (next + i))) ((next + i) * 1024)
          (min 1024 (file.data.length - 1024 * i)) fun k => file.data.getD (1024 * i + k) 0) b =
          blockBit (Bitmap.set d (24576 + (next + i))) b :=
        test_congr (blit_of_lt (by omega))
      rw [hbit, blockBit_set, Bool.or_eq_true, decide_eq_true_iff, hused b hb]
      constructor
      · rintro (heq | hold | hin)
        · exact .inr (by omega)
        · exact .inl hold
        · exact .inr (by omega)
      · rintro (hold | hin)
        · exact .inr (.inl hold)
        · by_cases heq : b = next + i
          · exact .inl heq
          · exact .inr (.inr (by omega))
    · dsimp only
      rcases ha' with hlt | hge
      · rw [blit_of_lt (by omega), set_of_ne (by omega), hsame a ha (.inl hlt)]
      · rw [blit_of_ge (by omega), set_of_ne (by omega), hsame a ha (.inr (by omega))]
  · refine ⟨rfl, ?_, fun b _ => ?_, fun a _ _ => rfl⟩
    · simp only [Nat.not_lt_zero, if_false]
    · refine ⟨.inl, fun h => h.resolve_right fun hin => ?_⟩
      omega

theorem packBlocks_data {inode : Inode} {s : Inode × Nat × Mem} (hnext : 55 ≤ next) (hhigh : next + k ≤ 65536)
    (hrun : (List.range k).foldlM (packBlock imageSize file) (inode, next, img) = .ok s) : s.2.1 = next + k ∧
      ∀ p, p < 1024 * k → p < file.data.length → s.2.2 (1024 * next + p) = file.data.getD p 0 := by
  refine foldlM_range (P := fun i s => s.2.1 = next + i ∧ ∀ p, p < 1024 * i → p < file.data.length →
    s.2.2 (1024 * next + p) = file.data.getD p 0) (fun i s s' hi h hbody => ?_) ⟨rfl, fun p hp => ?_⟩ hrun
  · obtain ⟨v, m, d⟩ := s
    obtain ⟨hm, hdata⟩ := h
    dsimp only at hm hdata
    subst hm
    simp only [packBlock, bind_eq_ok] at hbody
    obtain ⟨d₁, hset, d₂, hcopy, hret⟩ := hbody
    cases hret
    rw [poke_ok hcopy, blockBitmapSet_ok hset]
    refine ⟨rfl, fun p hp hlen => ?_⟩
    dsimp only
    rcases lt_or_ge p (1024 * i) with hlt | hge
    · rw [blit_of_lt (by omega), set_of_ne (by omega), hdata p hlt hlen]
    · obtain ⟨q, rfl⟩ := Nat.exists_eq_add_of_le hge
      rw [show 1024 * next + (1024 * i + q) = (next + i) * 1024 + q by omega, blit_add (by omega)]
  · exact absurd hp (Nat.not_lt_zero p)

theorem Packed.store {inode : Inode} {s : Inode × Nat × Mem} (h : Packed total n next size img es)
    (hn : n < 1032) (hk : k ≤ 8) (hhigh : next + k ≤ 65536)
    (hcopied : Copied inode next (Bitmap.set img (16384 + n)) k s)
    (hempty : ∀ i, inode.directBlocks i = 0) (hflat : Flat inode) (hfile : inode.isDir = false) :
    Packed total (n + 1) (next + k) size (blit s.2.2 (11264 + 42 * n) 42 s.1.encode) es := by
  obtain ⟨hn2, hnext⟩ := h.counts
  obtain ⟨v, m, d⟩ := s
  obtain ⟨-, hv, hused, hsame⟩ := hcopied
  dsimp only at hv hused hsame ⊢
  have hrest : ∀ a, a < 2048 ∨ 11264 ≤ a → a < 1024 * next ∨ 1024 * (next + k) ≤ a →
      a < 11264 + 42 * n ∨ 11264 + 42 * n + 42 ≤ a →
      blit d (11264 + 42 * n) 42 v.encode a = img a := by
    intro a ha ha' hrec
    have hd : d a = img a := by rw [hsame a (by omega) ha', set_of_ne (by omega)]
    rcases hrec with hlt | hge
    · rw [blit_of_lt hlt, hd]
    · rw [blit_of_ge hge, hd]
  have hlive : ∀ i, Live (blit d (11264 + 42 * n) 42 v.encode) i ↔ Live img i ∨ i = n := by
    intro i
    have hbits : Live (blit d (11264 + 42 * n) 42 v.encode) i ↔ Live (Bitmap.set img (16384 + n)) i :=
      live_congr fun a ha ha' => by rw [blit_of_lt (by omega), hsame a (by omega) (by omega)]
    rw [hbits]
    simp only [Live, inodeBit_set, Bool.or_eq_true, decide_eq_true_iff]
    constructor
    · rintro ⟨hi, heq | hbit⟩
      · exact .inr heq
      · exact .inl ⟨hi, hbit⟩
    · rintro (⟨hi, hbit⟩ | rfl)
      · exact ⟨hi, .inr hbit⟩
      · exact ⟨hn, .inl rfl⟩
  have hmark : ∀ b, Used (blit d (11264 + 42 * n) 42 v.encode) b ↔
      Used img b ∨ (next ≤ b ∧ b < next + k) := by
    intro b
    have hbits : Used (blit d (11264 + 42 * n) 42 v.encode) b ↔ Used d b :=
      used_congr fun a _ ha => blit_of_lt (by omega)
    have hold : Used (Bitmap.set img (16384 + n)) b ↔ Used img b := used_congr fun a ha _ =>
      set_of_ne (by omega)
    rw [hbits, ← hold]
    constructor
    · rintro ⟨hlow, hb, hbit⟩
      rcases (hused b hb).mp hbit with hbit | hin
      · exact .inl ⟨hlow, hb, hbit⟩
      · exact .inr hin
    · rintro (⟨hlow, hb, hbit⟩ | hin)
      · exact ⟨hlow, hb, (hused b hb).mpr (.inl hbit)⟩
      · exact ⟨by omega, by omega, (hused b (by omega)).mpr (.inr hin)⟩
  have hrec : ∀ i, i < 1032 → i ≠ n →
      inodeAt (blit d (11264 + 42 * n) 42 v.encode) i = inodeAt img i := by
    intro i hi hne
    refine inodeAt_congr fun a ha ha' => hrest a (by omega) (by omega) ?_
    rcases Nat.lt_or_gt_of_ne hne with hlt | hgt
    · exact .inl (by omega)
    · exact .inr (by omega)
  have hself : inodeAt (blit d (11264 + 42 * n) 42 v.encode) n = v := inodeAt_blit_self _ _ _
  have hvflat : Flat v := by rw [hv]; exact hflat
  have hdirect : ∀ i : Fin 8, (v.directBlocks i).toNat = if i.val < k then next + i else 0 := by
    intro i
    rw [hv]
    dsimp only
    split
    · rw [UInt16.toNat_ofNat', Nat.mod_eq_of_lt (by omega)]
    · rw [hempty]
      rfl
  generalize blit d (11264 + 42 * n) 42 v.encode = img' at *
  -- the slots of the new inode are the new blocks, those of the others are the old ones
  have hrefs : ∀ i s b, Refs img' (inodeAt img') (i, s) b →
      (i ≠ n ∧ Refs img (inodeAt img) (i, s) b) ∨
        (i = n ∧ ∃ j : Fin 8, s = .direct j ∧ j.val < k ∧ b = next + j) := by
    rintro i s b ⟨hi, heq, hb⟩
    by_cases hin : i = n
    · subst hin
      rw [hself] at heq
      by_cases hs : ∃ j, s = .direct j
      · obtain ⟨j, rfl⟩ := hs
        have hblock : (v.directBlocks j).toNat = b := heq
        rw [hdirect] at hblock
        split at hblock
        · exact .inr ⟨rfl, j, rfl, ‹_›, hblock.symm⟩
        · exact absurd hblock.symm hb
      · rw [slotBlock_flat hvflat fun j hj => hs ⟨j, hj⟩] at heq
        exact absurd heq.symm hb
    · have hold := ((hlive i).mp hi).resolve_right hin
      have hflat' := h.flat i ((h.live i).mp hold)
      rw [hrec i hold.1 hin, slotBlock_direct (d := img) hflat' hflat' rfl s] at heq
      exact .inl ⟨hin, hold, heq, hb⟩
  have hnot : ¬Live img n := fun hn' => lt_irrefl n ((h.live n).mp hn')
  refine
    { super := fun a ha => (hrest _ (by omega) (by omega) (by omega)).trans (h.super a ha)
      live := fun i => ?_
      used := fun b hb => ?_
      root := (hrec 1 (by decide) (by omega)).trans h.root
      flat := fun i hi => ?_
      file := fun i hi hne => ?_
      owned := ⟨?_, ?_⟩
      kept := fun b hb => ?_
      block := h.block.congr fun a ha => hrest _ (.inr ?_) (.inl ?_) (.inr ?_)
      fresh := fun a ha => (hrest a (.inr (by omega)) (.inr ha) (.inr (by omega))).trans
        (h.fresh a (by omega))
      counts := ⟨by omega, by omega⟩ }
  · rw [hlive, h.live]
    omega
  · rcases (hmark b).mp hb with hold | hin
    · have := h.used b hold
      omega
    · omega
  · by_cases hin : i = n
    · rw [hin, hself]
      exact hvflat
    · rw [hrec i (by omega) hin]
      exact h.flat i (by omega)
  · by_cases hin : i = n
    · rw [hin, hself, hv]
      exact hfile
    · rw [hrec i (by omega) hin]
      exact h.file i (by omega) hne
  · rintro ⟨i, s⟩ b hb
    rcases hrefs i s b hb with ⟨-, hold⟩ | ⟨-, j, -, hj, rfl⟩
    · exact (hmark b).mpr (.inl (h.owned.used_of_ref _ _ hold))
    · exact (hmark _).mpr (.inr ⟨by omega, by omega⟩)
  · rintro ⟨i, s⟩ ⟨i', s'⟩ b hb hb'
    rcases hrefs i s b hb with ⟨-, hold⟩ | ⟨rfl, j, rfl, hj, rfl⟩
    · have hlow := h.used b (h.owned.used_of_ref _ _ hold)
      rcases hrefs i' s' b hb' with ⟨-, hold'⟩ | ⟨-, j, -, -, rfl⟩
      · exact h.owned.holder_unique _ _ b hold hold'
      · omega
    · rcases hrefs i' s' _ hb' with ⟨-, hold'⟩ | ⟨rfl, j', rfl, -, heq⟩
      · have hlow := h.used _ (h.owned.used_of_ref _ _ hold')
        omega
      · have hval : j = j' := Fin.ext (by omega)
        rw [hval]
  · rcases (hmark b).mp hb.1 with hold | hin
    · -- who held the block still does
      refine h.kept b ⟨hold, ?_⟩
      rintro ⟨i, s⟩ ⟨hi, heq, hne⟩
      refine hb.2 (i, s) ⟨(hlive i).mpr (.inl hi), ?_, hne⟩
      have hin : i ≠ n := fun heq => hnot (heq ▸ hi)
      have hflat' := h.flat i ((h.live i).mp hi)
      rw [hrec i hi.1 hin, slotBlock_direct (d := img) hflat' hflat' rfl s]
      exact heq
    · have hj : b - next < 8 := by omega
      refine hb.2 (n, .direct ⟨b - next, hj⟩) ⟨(hlive n).mpr (.inr rfl), ?_, by omega⟩
      rw [hself]
      refine (hdirect ⟨b - next, hj⟩).trans ?_
      rw [if_pos (show b - next < k by omega)]
      exact Nat.add_sub_cancel' hin.1
  · have hdata : dataStart = 54 := rfl
    omega
  · have hdata : dataStart = 54 := rfl
    omega
  · have hdata : dataStart = 54 := rfl
    omega

end Files

/-! ## The root directory -/

section Root

variable {imageSize total n next size off ino : Nat} {img img' : Mem} {es : List Entry} {name : Name}
  {ft : UInt8}

theorem Packed.dirent (h : Packed total n next size img es) (hino : ino < 65536) (hne : name ≠ [])
    (hroom : direntFormat.span es + (5 + name.length) ≤ 1024)
    (hrun : direntWrite imageSize img (direntFormat.span es) ino name ft = .ok (off, img')) :
    off = direntFormat.span (es ++ [{ ino := ino, fileType := ft, name := name }]) ∧
      Packed total n next size img' (es ++ [{ ino := ino, fileType := ft, name := name }]) := by
  have hlen : nameLen name = name.length := Nat.mod_eq_of_lt (by omega)
  obtain ⟨rfl, rfl⟩ := direntWrite_ok hrun
  rw [hlen]
  refine ⟨?_, h.enter (fun k hk => ?_) ?_ (h.block.append hino hne hroom (fun k hk => ?_) fun k hk _ => ?_)⟩
  · rw [Format.span_append, Format.span_cons, Format.span_nil]
    exact Nat.add_assoc _ 5 _
  · rcases lt_or_ge k 55296 with hlt | hge
    · exact blit_of_lt (by omega)
    · exact blit_of_ge (by omega)
  · rw [← h.root]
    exact inodeAt_congr fun k _ _ => blit_of_lt (by omega)
  · rw [readBlock, show 1024 * dataStart + (direntFormat.span es + k) =
      55296 + direntFormat.span es + k by rw [dataStart]; omega]
    exact blit_add hk
  · have hdata : dataStart = 54 := rfl
    dsimp only at hk
    rcases hk with hlt | hge
    · exact blit_of_lt (by omega)
    · exact blit_of_ge (by omega)

theorem Packed.resize (h : Packed total n next size img es) (hoff : off < 2 ^ 32)
    (hrun : setRootSize imageSize img off = .ok img') : Packed total n next off img' es := by
  have himg := poke_ok hrun
  rw [show inodePtr 1 + 6 = 11306 + 6 by rfl] at himg
  subst himg
  refine h.enter (fun k hk => ?_) ?_ (h.block.congr fun k _ => ?_)
  · rcases lt_or_ge k 11312 with hlt | hge
    · exact blit_of_lt (by omega)
    · exact blit_of_ge (by omega)
  · have hroot := h.root
    have hsize : load32 (blit img (11306 + 6) 4 (byteOf off)) (11306 + 6) = off :=
      load32_byteOf hoff fun k hk => blit_add hk
    have h16 : ∀ o, o + 2 ≤ 6 ∨ 10 ≤ o → load16 (blit img (11306 + 6) 4 (byteOf off)) (11306 + o) =
        load16 img (11306 + o) := fun o ho => load16_blit_of_disjoint (by omega)
    have h32 : ∀ o, 10 ≤ o → load32 (blit img (11306 + 6) 4 (byteOf off)) (11306 + o) =
        load32 img (11306 + o) := fun o ho => load32_blit_of_disjoint (by omega)
    have hdirect : ∀ i : Fin 8, load16 (blit img (11306 + 6) 4 (byteOf off)) (11306 + 22 + 2 * i) =
        load16 img (11306 + 22 + 2 * i) := fun i => load16_blit_of_disjoint (by omega)
    have hmode := h16 0 (by decide)
    unfold inodeAt at hroot ⊢
    simp only [Inode.decode, rootInode, inodeInit, Inode.zero, Inode.mk.injEq] at hroot
    obtain ⟨hm, hu, hg, -, ha, hmt, hc, hb, hi, hd⟩ := hroot
    simp only [Inode.decode, rootInode, inodeInit, Inode.zero, Inode.mk.injEq, hsize, hdirect, hmode,
      h16 2 (by decide), h16 4 (by decide), h16 38 (by decide), h16 40 (by decide), h32 10 (by decide),
      h32 14 (by decide), h32 18 (by decide)]
    exact ⟨hm, hu, hg, trivial, ha, hmt, hc, hb, hi, hd⟩
  · have hdata : dataStart = 54 := rfl
    exact blit_of_ge (by omega)

theorem zero_bit (i : Nat) : Bitmap.test zeroBlock i = false := by
  simp [Bitmap.test, zeroBlock]

theorem decode_zero {m : Mem} {a : Nat} (h : ∀ k, k < 42 → m (a + k) = 0) : Inode.decode m a = Inode.zero :=
  (Inode.decode_congr (m := zeroBlock) (a := 0) fun k hk => h k hk).trans rfl

theorem system_packed {img₀ img₁ img₂ img₃ img₄ img₅ : Mem}
    (hsuper : superblock imageSize zeroBlock total = .ok img₀)
    (hsys : (List.range sysBlocks).foldlM (blockBitmapSet imageSize) img₀ = .ok img₁)
    (hbit₀ : inodeBitmapSet imageSize img₁ 0 = .ok img₂) (hbit₁ : inodeBitmapSet imageSize img₂ 1 = .ok img₃)
    (hroot : poke imageSize img₃ (inodePtr 1) 42 (rootInode 0).encode = .ok img₄)
    (hmark : blockBitmapSet imageSize img₄ dataStart = .ok img₅) : Packed total 2 55 0 img₅ [] := by
  have himg₀ := poke_ok hsuper
  have hzero : ∀ k, k < 1024 ∨ 1060 ≤ k → img₀ k = 0 := by
    intro k hk
    rw [himg₀]
    rcases hk with hlt | hge
    · exact blit_of_lt hlt
    · exact blit_of_ge hge
  have hclear : ∀ i, 8480 ≤ i → Bitmap.test img₀ i = false := fun i hi =>
    (test_congr (hzero _ (by omega))).trans (zero_bit i)
  obtain ⟨hsame, hbits⟩ := foldlM_range
    (P := fun i d => (∀ k, k < 3072 ∨ 11264 ≤ k → d k = img₀ k) ∧
      ∀ b, b < 65536 → (blockBit d b = true ↔ b < i))
    (fun i d d' hi hbefore hbody => by
      have hsys : sysBlocks = 54 := rfl
      obtain ⟨hsame, hbits⟩ := hbefore
      rw [blockBitmapSet_ok hbody]
      refine ⟨fun k hk => by rw [set_of_ne (by omega), hsame k hk], fun b hb => ?_⟩
      rw [blockBit_set, Bool.or_eq_true, decide_eq_true_iff, hbits b hb]
      omega)
    ⟨fun _ _ => rfl, fun b hb => by
      unfold blockBit
      rw [hclear _ (by omega)]
      simp⟩ hsys
  rw [inodeBitmapSet_ok hbit₀] at hbit₁
  have himg₅ := blockBitmapSet_ok hmark
  rw [poke_ok hroot, inodeBitmapSet_ok hbit₁] at himg₅
  have hdata : dataStart = 54 := rfl
  have hptr : inodePtr 1 = 11264 + 42 * 1 := rfl
  have hkeep : ∀ k, k < 2048 ∨ 11264 ≤ k → k < 11306 ∨ 11348 ≤ k → img₅ k = img₀ k := by
    intro k hk hrec
    rw [himg₅, set_of_ne (by omega)]
    rcases hrec with hlt | hge
    · rw [blit_of_lt (by omega), set_of_ne (by omega), set_of_ne (by omega), hsame k (by omega)]
    · rw [blit_of_ge (by omega), set_of_ne (by omega), set_of_ne (by omega), hsame k (by omega)]
  have hlive : ∀ i, Live img₅ i ↔ i < 2 := by
    intro i
    have hbit : Live img₅ i ↔ Live (Bitmap.set (Bitmap.set img₁ (16384 + 0)) (16384 + 1)) i :=
      live_congr fun k _ hk => by rw [himg₅, set_of_ne (by omega), blit_of_lt (by omega)]
    rw [hbit]
    simp only [Live, inodeBit_set, Bool.or_eq_true, decide_eq_true_iff]
    constructor
    · rintro ⟨hi, heq | heq | hset⟩
      · omega
      · omega
      · have hold : inodeBit img₁ i = Bitmap.test img₀ (16384 + i) := test_congr (hsame _ (by omega))
        rw [hold, hclear _ (by omega)] at hset
        cases hset
    · intro hi
      exact ⟨by omega, by omega⟩
  have hused : ∀ b, Used img₅ b ↔ b = 54 := by
    intro b
    have hbit : ∀ b, b < 65536 → blockBit (blit (Bitmap.set (Bitmap.set img₁ (16384 + 0)) (16384 + 1))
        (inodePtr 1) 42 (rootInode 0).encode) b = blockBit img₁ b := by
      intro b hb
      refine test_congr ?_
      rw [blit_of_lt (by omega), set_of_ne (by omega), set_of_ne (by omega)]
    simp only [Used, himg₅, blockBit_set, Bool.or_eq_true, decide_eq_true_iff]
    constructor
    · rintro ⟨hlow, hb, heq | hset⟩
      · exact heq
      · rw [hbit b hb, hbits b hb] at hset
        have hsys : sysBlocks = 54 := rfl
        omega
    · rintro rfl
      exact ⟨le_rfl, by decide, .inl rfl⟩
  have hrec : inodeAt img₅ 1 = rootInode 0 := by
    rw [himg₅, inodeAt_congr fun k _ _ => set_of_ne (by omega)]
    exact inodeAt_blit_self _ 1 _
  have hunused : inodeAt img₅ 0 = Inode.zero :=
    decode_zero fun k hk => (hkeep _ (by omega) (by omega)).trans (hzero _ (by omega))
  have hcases : ∀ i, i < 2 → i = 0 ∨ i = 1 := fun i hi => by omega
  -- the root's block is the only one in use, and nothing else refers to one
  have hrefs : ∀ i s b, Refs img₅ (inodeAt img₅) (i, s) b → (i, s) = (1, .direct 0) ∧ b = 54 := by
    rintro i s b ⟨hi, heq, hb⟩
    rcases hcases i ((hlive i).mp hi) with rfl | rfl
    · rw [hunused] at heq
      have hnone : slotBlock img₅ Inode.zero s = 0 := empty_of_pointers (fun _ => rfl) rfl rfl _ s
      exact absurd (heq.symm.trans hnone) hb
    · rw [hrec] at heq
      by_cases hs : s = .direct 0
      · subst hs
        exact ⟨rfl, heq.symm⟩
      · have hnone : slotBlock img₅ (rootInode 0) s = 0 := by
          by_cases hdirect : ∃ i, s = .direct i
          · obtain ⟨i, rfl⟩ := hdirect
            have hne : i ≠ 0 := fun h0 => hs (h0 ▸ rfl)
            exact congrArg UInt16.toNat (update_of_ne hne (UInt16.ofNat dataStart) Inode.zero.directBlocks)
          · exact slotBlock_flat ⟨rfl, rfl⟩ fun i heq => hdirect ⟨i, heq⟩
        exact absurd (heq.symm.trans hnone) hb
  exact
    { super := fun k hk => by
        rw [hkeep _ (by omega) (by omega), himg₀, blit_add hk]
      live := hlive
      used := fun b hb => by
        rw [(hused b).mp hb]
        decide
      root := hrec
      flat := fun i hi => by
        rcases hcases i hi with rfl | rfl
        · rw [hunused]
          exact ⟨rfl, rfl⟩
        · rw [hrec]
          exact ⟨rfl, rfl⟩
      file := fun i hi hne => by
        rcases hcases i hi with rfl | rfl
        · rw [hunused]
          rfl
        · exact absurd rfl hne
      owned :=
        { used_of_ref := fun r b hb => (hused b).mpr (hrefs r.1 r.2 b hb).2
          holder_unique := fun r r' b hb hb' =>
            (hrefs r.1 r.2 b hb).1.trans (hrefs r'.1 r'.2 b hb').1.symm }
      kept := fun b hb => by
        refine hb.2 (1, .direct 0) ⟨(hlive 1).mpr (by decide), ?_, ?_⟩
        · rw [hrec, (hused b).mp hb.1]
          rfl
        · rw [(hused b).mp hb.1]
          decide
      block := Block.nil fun k _ => (hkeep _ (by omega) (by omega)).trans (hzero _ (by omega))
      fresh := fun k hk => (hkeep _ (by omega) (by omega)).trans (hzero _ (by omega))
      counts := ⟨le_rfl, le_rfl⟩ }

theorem emptyImage_packed {s : Build} (hrun : emptyImage imageSize total = .ok s) :
    s.nextInode = 2 ∧ s.nextDataBlock = 55 ∧ s.dirOff = direntFormat.span (dots 1 1) ∧
      Packed total 2 55 s.dirOff s.img (dots 1 1) := by
  simp only [emptyImage, bind_eq_ok] at hrun
  obtain ⟨img₀, hsuper, img₁, hsys, img₂, hbit₀, img₃, hbit₁, img₄, hroot, img₅, hmark,
    ⟨off₁, img₆⟩, hdot, ⟨off₂, img₇⟩, hdots, img₈, hsize, hret⟩ := hrun
  cases hret
  have hbase := system_packed hsuper hsys hbit₀ hbit₁ hroot hmark
  obtain ⟨rfl, hone⟩ := hbase.dirent (by decide) (by decide) (by decide) hdot
  obtain ⟨rfl, htwo⟩ := hone.dirent (by decide) (by decide) (by decide) hdots
  exact ⟨rfl, rfl, rfl, htwo.resize (show 13 < 2 ^ 32 by decide) hsize⟩

end Root

/-! ## The whole image -/

structure FileEntries (files : List File) (first : Nat) (es : List Entry) : Prop where
  names : (es.map Entry.name).Sublist (files.map File.name)
  inodes : es.map Entry.ino = List.range' first es.length
  types : ∀ e ∈ es, e.fileType = direntFile
  visible : ∀ e ∈ es, e.name.head? ≠ some 46

section Files

variable {imageSize total n next first : Nat} {img : Mem} {es : List Entry} {file : File}
  {files : List File}

theorem FileEntries.nil : FileEntries files first [] where
  names := nil_sublist _
  inodes := rfl
  types := nofun
  visible := nofun

theorem FileEntries.skip (h : FileEntries files first es) : FileEntries (file :: files) first es where
  names := h.names.cons _
  inodes := h.inodes
  types := h.types
  visible := h.visible

theorem FileEntries.cons (h : FileEntries files (first + 1) es) (hdot : file.name.head? ≠ some 46) :
    FileEntries (file :: files) first ({ ino := first, fileType := direntFile, name := file.name } :: es) where
  names := h.names.cons_cons _
  inodes := by
    rw [map_cons, length_cons, range'_succ, h.inodes]
  types := fun e he => by
    rcases mem_cons.mp he with rfl | hrest
    · rfl
    · exact h.types e hrest
  visible := fun e he => by
    rcases mem_cons.mp he with rfl | hrest
    · exact hdot
    · exact h.visible e hrest

theorem FileEntries.numbered (h : FileEntries files first es) {e : Entry} (he : e ∈ es) :
    first ≤ e.ino ∧ e.ino < first + es.length := by
  have hmem : e.ino ∈ es.map Entry.ino := mem_map_of_mem he
  rw [h.inodes, List.mem_range'_1] at hmem
  exact hmem

theorem blocksNeeded_le (file : File) : blocksNeeded file ≤ 8 := by
  have hsize : packedSize file ≤ 8192 := Nat.min_le_right _ _
  unfold blocksNeeded
  omega

theorem packedSize_le (file : File) :
    packedSize file ≤ file.data.length ∧ packedSize file ≤ 1024 * blocksNeeded file := by
  refine ⟨(Nat.min_le_left _ _).trans (Nat.mod_le _ _), ?_⟩
  unfold blocksNeeded
  omega

/-- The record and the bytes of a file that is packed. -/
def Stored (file : File) (img : Mem) (ino : Nat) : Prop :=
  ∃ first, 55 ≤ first ∧ first + blocksNeeded file ≤ 65536 ∧ inodeAt img ino =
    { inodeInit fileMode with
      size := UInt32.ofNat (packedSize file)
      directBlocks := fun b => if b.val < blocksNeeded file then UInt16.ofNat (first + b) else 0 } ∧
    ∀ p, p < packedSize file → img (1024 * first + p) = file.data.getD p 0

def AllStored (files : List File) (img : Mem) (es : List Entry) : Prop :=
  ∀ e ∈ es, ∃ f ∈ files, e.name = f.name ∧ Stored f img e.ino

/-- A byte of the records below `n` or the blocks below `next`. -/
def Given (n next a : Nat) : Prop := (11348 ≤ a ∧ a < 11264 + 42 * n) ∨ (56320 ≤ a ∧ a < 1024 * next)

theorem Copied.given {inode : Inode} {t : Inode × Nat × Mem} {k a : Nat}
    (h : Copied inode next (Bitmap.set img (16384 + n)) k t) (hn : n < 1032) (hnext : 55 ≤ next)
    (ha : Given n next a) :
    blit t.2.2 (11264 + 42 * n) 42 t.1.encode a = img a := by
  rcases ha with ⟨hlow, hhigh⟩ | ⟨hlow, hhigh⟩
  · rw [blit_of_lt hhigh, h.same a (.inr (by omega)) (.inl (by omega)), set_of_ne (by omega)]
  · rw [blit_of_ge (by omega), h.same a (.inr (by omega)) (.inl hhigh), set_of_ne (by omega)]

theorem given_entered {img₁ img₂ : Mem} {name : Name} {ft : UInt8} {ino off off' a : Nat}
    (hroom : off + 5 + name.length ≤ 1024)
    (hdirent : direntWrite imageSize img off ino name ft = .ok (off', img₁))
    (hsize : setRootSize imageSize img₁ off' = .ok img₂) (hn : n ≤ 1032) (ha : Given n next a) :
    img₂ a = img a := by
  have hlen : nameLen name ≤ name.length := Nat.mod_le _ _
  have hroot : inodePtr 1 + 6 = 11312 := rfl
  rw [poke_ok hsize, (direntWrite_ok hdirent).2, hroot]
  rcases ha with ⟨hlow, hhigh⟩ | ⟨hlow, hhigh⟩
  · rw [blit_of_ge (by omega), blit_of_lt (by omega)]
  · rw [blit_of_ge (by omega), blit_of_ge (by omega)]

theorem Copied.stored {t : Inode × Nat × Mem}
    (hdata : ∀ p, p < 1024 * blocksNeeded file → p < file.data.length →
      t.2.2 (1024 * next + p) = file.data.getD p 0)
    (h : Copied { inodeInit fileMode with size := UInt32.ofNat (packedSize file) } next img
      (blocksNeeded file) t)
    (hn : 2 ≤ n ∧ n < 1032) (hnext : 55 ≤ next ∧ next + blocksNeeded file ≤ 65536) {img' : Mem}
    (hsame : ∀ a, Given (n + 1) (next + blocksNeeded file) a →
      img' a = blit t.2.2 (11264 + 42 * n) 42 t.1.encode a) :
    Stored file img' n := by
  have hsizes := packedSize_le file
  refine ⟨next, hnext.1, hnext.2, ?_, fun p hp => ?_⟩
  · rw [inodeAt_congr fun k _ _ => hsame k (.inl ⟨by omega, by omega⟩), inodeAt_blit_self]
    exact h.record
  · rw [hsame _ (.inr ⟨by omega, by omega⟩), blit_of_ge (by omega), hdata p (by omega) (by omega)]

theorem packFiles_packed {s s' : Build} (hbudget : s.nextDataBlock + 16 ≤ 55 + 8 * s.nextInode)
    (hnames : ∀ f ∈ files, f.name ≠ [])
    (h : Packed total s.nextInode s.nextDataBlock s.dirOff s.img es) (hoff : s.dirOff = direntFormat.span es)
    (hrun : packFiles imageSize total files s = .ok s') :
    ∃ n rest, s.nextInode + rest.length ≤ n ∧ s'.dirOff = direntFormat.span (es ++ rest) ∧
      Packed total n s'.nextDataBlock s'.dirOff s'.img (es ++ rest) ∧ FileEntries files s.nextInode rest ∧
      (∀ a, Given s.nextInode s.nextDataBlock a → s'.img a = s.img a) ∧ AllStored files s'.img rest := by
  induction files generalizing s es with
  | nil =>
    cases hrun
    refine ⟨_, [], le_rfl, ?_, ?_, FileEntries.nil, fun _ _ => rfl, nofun⟩
    · rwa [append_nil]
    · rwa [append_nil]
  | cons file files ih =>
    have hstop : ∃ n rest, s.nextInode + rest.length ≤ n ∧ s.dirOff = direntFormat.span (es ++ rest) ∧
        Packed total n s.nextDataBlock s.dirOff s.img (es ++ rest) ∧
        FileEntries (file :: files) s.nextInode rest ∧
          (∀ a, Given s.nextInode s.nextDataBlock a → s.img a = s.img a) ∧
        AllStored (file :: files) s.img rest := by
      refine ⟨s.nextInode, [], le_rfl, ?_, ?_, FileEntries.nil, fun _ _ => rfl, nofun⟩
      · rwa [append_nil]
      · rwa [append_nil]
    have hlater := fun f hf => hnames f (mem_cons_of_mem _ hf)
    unfold packFiles at hrun
    split at hrun
    · obtain ⟨n, rest, hn, hspan, hpacked, hentries, hsame, hfiles⟩ := ih hbudget hlater h hoff hrun
      refine ⟨n, rest, hn, hspan, hpacked, hentries.skip, hsame, fun e he => ?_⟩
      obtain ⟨f, hf, hstored⟩ := hfiles e he
      exact ⟨f, mem_cons_of_mem _ hf, hstored⟩
    rename_i hkeep
    split at hrun
    · cases hrun
      exact hstop
    split at hrun
    · cases hrun
      exact hstop
    have htable : totalInodes = 1032 := rfl
    have hneeded := blocksNeeded_le file
    have hdot : file.name.head? ≠ some 46 := fun heq => hkeep (.inl heq)
    simp only [bind_eq_ok] at hrun
    obtain ⟨img₁, hbit, ⟨v, m, img₂⟩, hcopy, img₃, hrec, hrun⟩ := hrun
    have hcopied := packBlocks_copied (blocksNeeded_le file) h.counts.2 (by omega) hcopy
    rw [inodeBitmapSet_ok hbit] at hcopied
    have hstored := h.store (by omega) (blocksNeeded_le file) (by omega) hcopied (fun _ => rfl)
      ⟨rfl, rfl⟩ (show (fileMode &&& 0x7 == 0x2) = false by decide)
    have hm := hcopied.counted
    have hptr : inodePtr s.nextInode = 11264 + 42 * s.nextInode := by
      unfold inodePtr inodeTableStart
      omega
    obtain ⟨hfirst, hnext⟩ := h.counts
    obtain ⟨-, hdata⟩ := packBlocks_data hnext (by omega) hcopy
    have hgiven := fun a => @Copied.given s.nextInode s.nextDataBlock s.img _ _ _ a hcopied (by omega) hnext
    dsimp only at hm
    subst hm
    rw [hptr] at hrec
    rw [poke_ok hrec] at hrun
    split at hrun
    · -- the inode is stored, but it gets no entry
      cases hrun
      refine ⟨s.nextInode + 1, [], Nat.le_succ _, ?_, ?_, FileEntries.nil, hgiven, nofun⟩
      · rwa [append_nil]
      · rw [append_nil]
        exact hstored
    · rename_i hroom
      simp only [bind_eq_ok] at hrun
      obtain ⟨⟨off, img₄⟩, hdirent, img₅, hsize, hrun⟩ := hrun
      rw [hoff] at hdirent hroom
      obtain ⟨rfl, hentered⟩ := hstored.dirent (show s.nextInode < 65536 by omega)
        (hnames file mem_cons_self) (by omega)
        hdirent
      have hinside := hentered.block.inside
      have hresized := hentered.resize (by omega) hsize
      have hbudget' : s.nextDataBlock + blocksNeeded file + 16 ≤ 55 + 8 * (s.nextInode + 1) := by omega
      obtain ⟨n, rest, hn, hspan, hpacked, hentries, hsame, hfiles⟩ := ih
        (s :=
          { img := img₅
            nextInode := s.nextInode + 1
            nextDataBlock := s.nextDataBlock + blocksNeeded file
            entryCount := s.entryCount + 1
            dirOff := _ })
        hbudget' hlater hresized rfl hrun
      rw [append_assoc, singleton_append] at hspan hpacked
      have hkept : ∀ a, Given (s.nextInode + 1) (s.nextDataBlock + blocksNeeded file) a →
          s'.img a = blit img₂ (11264 + 42 * s.nextInode) 42 v.encode a := fun a ha =>
        (hsame a ha).trans (given_entered (by omega) hdirent hsize (by omega) ha)
      have hself : Stored file s'.img s.nextInode := hcopied.stored hdata (by omega) (by omega) hkept
      refine ⟨n, _, ?_, hspan, hpacked, hentries.cons hdot, fun a ha => ?_, fun e he => ?_⟩
      · rw [length_cons]
        dsimp only at hn
        omega
      · exact (hkept a (ha.imp (fun h => ⟨h.1, by omega⟩) fun h => ⟨h.1, by omega⟩)).trans (hgiven a ha)
      · rcases mem_cons.mp he with rfl | he
        · exact ⟨file, mem_cons_self, rfl, hself⟩
        · obtain ⟨f, hf, hstored⟩ := hfiles e he
          exact ⟨f, mem_cons_of_mem _ hf, hstored⟩

end Files

end JexOs.Mkjexfs
