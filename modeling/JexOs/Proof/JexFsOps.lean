import JexOs.Proof.JexFsDir

/-!
# Creating and renaming

Between calls the inodes are those of the table. Each call keeps the accounting sound, loses no block
under the condition stated with it, and keeps every file it is not about.
-/

namespace JexOs.JexFs

open ByteMem Ownership Loop

structure Keeps (i : Nat) (d d' : Mem) : Prop where
  live : Live d' i
  record : inodeAt d' i = inodeAt d i
  blocks : ∀ s, slotBlock d (inodeAt d i) s ≠ 0 → ∀ k, k < 1024 →
    d' (1024 * slotBlock d (inodeAt d i) s + k) = d (1024 * slotBlock d (inodeAt d i) s + k)

section Keeps

variable {i : Nat} {d d' d'' : Mem}

theorem Keeps.slots (h : Keeps i d d')
    (s : Slot) : slotBlock d' (inodeAt d' i) s = slotBlock d (inodeAt d i) s := by
  rw [h.record]
  exact slotBlock_congr fun t _ ht k hk => h.blocks t ht k hk

theorem Keeps.trans (h : Keeps i d d') (h' : Keeps i d' d'') : Keeps i d d'' := by
  refine ⟨h'.live, h'.record.trans h.record, fun s hs k hk => ?_⟩
  have hlater := h'.blocks s (by rwa [h.slots]) k hk
  rw [h.slots] at hlater
  rw [hlater, h.blocks s hs k hk]

theorem Works.keeps {c : Prop} {idx : Nat} {v v' : Inode} (h : Works c idx d v d' v')
    (hne : i ≠ idx) (hi : Live d i) : Keeps i d d' :=
  { live := (h.live i).mpr hi
    record := h.inodeAt_eq hi.1 hne
    blocks := h.others i hne hi }

end Keeps

/-- What a call from `d` to `d'` does at rest. It may change the files in `touched`, and where `c`
holds it loses no block. -/
structure Settles (c : Prop) (touched : Nat → Prop) (d d' : Mem) : Prop where
  sound : Sound d' (inodeAt d')
  lost : c → ∀ b, LostBlock d' (inodeAt d') b → LostBlock d (inodeAt d) b
  keeps : ∀ i, Live d i → ¬touched i → Keeps i d d'

section Settles

variable {c : Prop} {touched : Nat → Prop} {total idx ino : Nat} {d d' d'' : Mem} {v : Inode}

theorem Works.settles (h : Works c idx d (inodeAt d idx) d' (inodeAt d' idx)) : Settles c (· = idx) d d' := by
  have hsound := h.sound
  have hlost := h.lost
  rw [view_inodeAt] at hsound hlost
  rw [view_inodeAt] at hlost
  exact ⟨hsound, hlost, fun i hi hne => h.keeps hne hi⟩

theorem inodeBit_set (d : Mem) (ino i : Nat) :
    inodeBit (Bitmap.set d (16384 + ino)) i = (decide (i = ino) || inodeBit d i) := by
  unfold inodeBit
  rw [Bitmap.test_set]
  simp only [Nat.add_left_cancel_iff]

theorem inodeBit_clear (d : Mem) (ino i : Nat) :
    inodeBit (Bitmap.clear d (16384 + ino)) i = (!decide (i = ino) && inodeBit d i) := by
  unfold inodeBit
  rw [Bitmap.test_clear]
  simp only [Nat.add_left_cancel_iff]

def Inode.Empty (v : Inode) : Prop := ∀ d s, slotBlock d v s = 0

theorem empty_of_pointers (hdirect : ∀ i, v.directBlocks i = 0) (hindirect : v.indirectBlock = 0)
    (hdouble : v.doubleIndirect = 0) : v.Empty := by
  intro d s
  cases s <;> simp [slotBlock, hdirect, hindirect, hdouble]

theorem takeInode_sound (h : Sound d (inodeAt d)) (hino : ino < 1032) (hfree : inodeBit d ino = false)
    (hempty : v.Empty) : Sound (Bitmap.set d (16384 + ino)) (view (Bitmap.set d (16384 + ino)) ino v) ∧
      Live (Bitmap.set d (16384 + ino)) ino ∧
      (∀ b, LostBlock (Bitmap.set d (16384 + ino)) (view (Bitmap.set d (16384 + ino)) ino v) b →
        LostBlock d (inodeAt d) b) ∧ ∀ i, Live d i → i ≠ ino ∧ Keeps i d (Bitmap.set d (16384 + ino)) := by
  have hsame : ∀ k, 3072 ≤ k → Bitmap.set d (16384 + ino) k = d k := fun k hk => set_of_ne (by omega)
  have hlive : ∀ i, Live (Bitmap.set d (16384 + ino)) i ↔ Live d i ∨ i = ino := by
    intro i
    simp only [Live, inodeBit_set, Bool.or_eq_true, decide_eq_true_eq]
    constructor
    · rintro ⟨hi, heq | hbit⟩
      · exact .inr heq
      · exact .inl ⟨hi, hbit⟩
    · rintro (⟨hi, hbit⟩ | rfl)
      · exact ⟨hi, .inr hbit⟩
      · exact ⟨hino, .inl rfl⟩
  have hne : ∀ i, Live d i → i ≠ ino := by
    rintro i ⟨-, hbit⟩ rfl
    rw [hfree] at hbit
    cases hbit
  have hkeeps : ∀ i, Live d i → Keeps i d (Bitmap.set d (16384 + ino)) := by
    intro i hi
    refine ⟨(hlive i).mpr (.inl hi), inodeAt_congr fun k hk _ => hsame k (by omega),
      fun s hs k _ => hsame _ ?_⟩
    have hge := (h.used hi hs).1
    omega
  have hslots : ∀ i, Live d i → ∀ s, slotBlock (Bitmap.set d (16384 + ino))
      (view (Bitmap.set d (16384 + ino)) ino v i) s = slotBlock d (inodeAt d i) s := by
    intro i hi s
    rw [view_of_ne (hne i hi)]
    exact (hkeeps i hi).slots s
  have hrefs : ∀ k b, Refs (Bitmap.set d (16384 + ino)) (view (Bitmap.set d (16384 + ino)) ino v) k b
      ↔ Refs d (inodeAt d) k b := by
    rintro ⟨i, s⟩ b
    simp only [Refs, hlive]
    constructor
    · rintro ⟨hi | rfl, heq, hb⟩
      · rw [hslots i hi] at heq
        exact ⟨hi, heq, hb⟩
      · rw [view_self, hempty] at heq
        exact absurd heq.symm hb
    · rintro ⟨hi, heq, hb⟩
      rw [← hslots i hi] at heq
      exact ⟨.inl hi, heq, hb⟩
  obtain ⟨howned, hlost⟩ := h.owned.congr hrefs fun b => used_congr fun k hk _ => hsame k hk
  refine ⟨⟨howned, fun i hi a b => ?_⟩, (hlive ino).mpr (.inr rfl), fun b hb => (hlost b).mp hb,
    fun i hi => ⟨hne i hi, hkeeps i hi⟩⟩
  rcases (hlive i).mp hi with hi' | rfl
  · rw [hslots i hi']
    exact h.second_empty i hi' a b
  · rw [view_self]
    exact hempty _ _

theorem release_settles (h : Sound d (inodeAt d)) (hino : Live d ino)
    (hlive : ∀ i, i < 1032 → inodeBit d' i = (!decide (i = ino) && inodeBit d i))
    (hused : ∀ b, Used d' b ↔ Used d b ∧ ∀ s, slotBlock d (inodeAt d ino) s ≠ b)
    (hsame : ∀ k, 11264 ≤ k → d' k = d k) : Settles c (· = ino) d d' := by
  have hlive' : ∀ i, Live d' i ↔ Live d i ∧ i ≠ ino := by
    intro i
    constructor
    · rintro ⟨hi, hbit⟩
      rw [hlive i hi, Bool.and_eq_true, Bool.not_eq_true', decide_eq_false_iff_not] at hbit
      exact ⟨⟨hi, hbit.2⟩, hbit.1⟩
    · rintro ⟨⟨hi, hbit⟩, hne⟩
      refine ⟨hi, ?_⟩
      rw [hlive i hi, hbit]
      simpa using hne
  have hkeeps : ∀ i, Live d i → i ≠ ino → Keeps i d d' := by
    intro i hi hne
    refine ⟨(hlive' i).mpr ⟨hi, hne⟩, inodeAt_congr fun k hk _ => hsame k (by omega),
      fun s hs k _ => hsame _ ?_⟩
    have hge := (h.used hi hs).1
    omega
  have hrefs : ∀ k b, Refs d' (inodeAt d') k b ↔ Refs d (inodeAt d) k b ∧ k.1 ≠ ino := by
    rintro ⟨i, s⟩ b
    simp only [Refs, hlive']
    constructor
    · rintro ⟨⟨hi, hne⟩, heq, hb⟩
      rw [(hkeeps i hi hne).slots] at heq
      exact ⟨⟨hi, heq, hb⟩, hne⟩
    · rintro ⟨⟨hi, heq, hb⟩, hne⟩
      rw [← (hkeeps i hi hne).slots] at heq
      exact ⟨⟨hi, hne⟩, heq, hb⟩
  have hkept : ∀ b, Used d' b ↔ Used d b ∧ ∀ k, Refs d (inodeAt d) k b → k.1 ≠ ino := by
    intro b
    rw [hused]
    refine and_congr_right fun hb => ⟨fun hnone k hk heq => ?_, fun hnone s heq => ?_⟩
    · obtain ⟨-, hslot, -⟩ := hk
      rw [heq] at hslot
      exact hnone k.2 hslot
    · have hge := hb.1
      exact hnone (ino, s) ⟨hino, heq, by omega⟩ rfl
  obtain ⟨howned, hlost⟩ := h.owned.release hrefs hkept
  refine ⟨⟨howned, fun i hi a b => ?_⟩, fun _ => hlost, fun i hi hne => hkeeps i hi hne⟩
  obtain ⟨hi', hne⟩ := (hlive' i).mp hi
  rw [(hkeeps i hi' hne).slots]
  exact h.second_empty i hi' a b

theorem newInode_settles (h : Sound d (inodeAt d)) (hino : ino < 1032)
    (hfree : inodeBit d ino = false) (hempty : v.Empty) :
    let e := blit (Bitmap.set d (16384 + ino)) (11264 + 42 * ino) 42 v.encode
    Settles c (fun _ => False) d e ∧ Live e ino ∧ inodeAt e ino = v ∧
      ∀ k, 3072 ≤ k → k < 11264 → e k = d k := by
  obtain ⟨hsound, hlive, hlost, hkeeps⟩ := takeInode_sound h hino hfree hempty
  have hcommit := Works.commit (c := True) hsound hlive
  have hrec := inodeAt_blit_self (Bitmap.set d (16384 + ino)) ino v
  have hdone := hcommit.sound
  have hlost' := hcommit.lost trivial
  generalize he : blit (Bitmap.set d (16384 + ino)) (11264 + 42 * ino) 42 v.encode = e at *
  have hview : view e ino v = inodeAt e := by rw [← hrec, view_inodeAt]
  rw [hview] at hdone hlost'
  refine ⟨⟨hdone, fun _ b hb => hlost b (hlost' b hb), fun i hi _ => ?_⟩,
    (hcommit.live ino).mpr hlive, hrec, fun k hk hk' => ?_⟩
  · exact (hkeeps i hi).2.trans (hcommit.keeps (hkeeps i hi).1 (hkeeps i hi).2.live)
  · rw [← he, blit_of_lt (by omega), set_of_ne (by omega)]

theorem Keeps.dirAgree (h : Keeps idx d d') (hs : Sound d (inodeAt d)) (hidx : Live d idx) :
    DirAgree d d' (inodeAt d idx) := by
  have hview : Sound d (view d idx (inodeAt d idx)) := by rwa [view_inodeAt]
  have hslots : ∀ s, slotBlock d' (inodeAt d idx) s = slotBlock d (inodeAt d idx) s := by
    intro s
    rw [← h.slots s, h.record]
  refine ⟨fun lb => ?_, fun lb hne k hk => ?_⟩
  · by_cases hlb : lb < 520
    · rw [bmap_eq hlb, bmap_eq hlb, hslots]
    · rw [bmap_eq_zero (by omega) (hview.second_empty_own hidx), bmap_eq_zero (by omega)]
      intro i j
      rw [hslots]
      exact hview.second_empty_own hidx i j
  · obtain ⟨-, hslot, -, -⟩ := hview.mapped hidx hne
    rw [hslot] at hne ⊢
    exact h.blocks _ hne k hk

def newFile : Inode := { Inode.zero with mode := fileMode }

theorem newFile_empty : newFile.Empty := empty_of_pointers (fun _ => rfl) rfl rfl

theorem create_cases {fs fs' : Fs} {name : Name} {r : Ret Nat} (hsb : fs.sb = layout total)
    (hrun : jexfsCreate fs name = .ok (r, fs')) :
    (fs' = fs ∧ ∀ n, r = .ok n → jexfsOpen fs name = .ok (.ok n)) ∨
      ∃ ino a d', ino < 1032 ∧ inodeBit fs.disk ino = false ∧ ino ≠ 0 ∧ Fits ino ∧
        (∃ e, jexfsOpen fs name = .ok (.error e)) ∧ jexfsAddDirent (layout total)
          (blit (Bitmap.set fs.disk (16384 + ino)) (11264 + 42 * ino) 42 newFile.encode)
          fs.cwd ino name direntFile = .ok (a, d') ∧
          ((a = .ok () ∧ r = .ok ino ∧ fs' = { fs with disk := d' }) ∨
          (∃ e, a = .error e ∧ r = .error e ∧
            fs' = { fs with disk := Bitmap.clear d' (16384 + ino) })) := by
  obtain ⟨sb, d, cwd⟩ := fs
  subst hsb
  unfold jexfsCreate at hrun
  split at hrun
  · cases hrun
    exact .inl ⟨rfl, fun n hn => by cases hn⟩
  split at hrun
  · cases hrun
    exact .inl ⟨rfl, fun n hn => by cases hn⟩
  simp only [bind_eq_ok] at hrun
  obtain ⟨o, hopen, hrun⟩ := hrun
  cases o with
  | ok existing =>
    cases hrun
    exact .inl ⟨rfl, fun n hn => by cases hn; exact hopen⟩
  | error e =>
    cases halloc : jexfsAllocInode (layout total) d with
    | none =>
      rw [halloc] at hrun
      cases hrun
      exact .inl ⟨rfl, fun n hn => by cases hn⟩
    | some p =>
      obtain ⟨ino, d₁⟩ := p
      obtain ⟨hge, hlt, hfree, rfl⟩ := allocInode_cases halloc
      rw [halloc] at hrun
      simp only [bind_eq_ok] at hrun
      obtain ⟨d₂, hwrite, ⟨a, d'⟩, hadd, hend⟩ := hrun
      obtain ⟨hfits, rfl⟩ := writeInode_cases hlt hwrite
      refine .inr ⟨ino, a, d', hlt, hfree, by omega, hfits, ⟨e, hopen⟩, hadd, ?_⟩
      cases a with
      | ok u =>
        cases hend
        exact .inl ⟨rfl, rfl, rfl⟩
      | error e' =>
        simp only [bind_eq_ok] at hend
        obtain ⟨d₃, hfreed, hret⟩ := hend
        cases hret
        rw [freeInode_cases (by omega) hfreed]
        exact .inr ⟨e', rfl, rfl, rfl⟩

theorem freeInode_settles (h : Sound d (inodeAt d)) (hino : Live d ino) (hempty : (inodeAt d ino).Empty) :
    Settles c (· = ino) d (Bitmap.clear d (16384 + ino)) := by
  have hlt := hino.1
  have hsame : ∀ k, 3072 ≤ k → Bitmap.clear d (16384 + ino) k = d k := fun k hk => clear_of_ne (by omega)
  refine release_settles h hino (fun i _ => inodeBit_clear d ino i) (fun b => ?_) fun k hk =>
    hsame k (by omega)
  rw [used_congr fun k hk _ => hsame k hk]
  refine ⟨fun hb => ⟨hb, fun s heq => ?_⟩, And.left⟩
  rw [hempty] at heq
  have := hb.1
  omega

def blankDir : Inode :=
  { Inode.zero with
    mode := dirMode
    size := 13 }

def newDir (blk : Nat) : Inode :=
  { blankDir with
    directBlocks := Function.update blankDir.directBlocks 0 (UInt16.ofNat blk) }

theorem blankDir_empty : blankDir.Empty := empty_of_pointers (fun _ => rfl) rfl rfl

theorem slotBlock_newDir {blk : Nat} (hblk : blk < 65536) (d : Mem) (s : Slot) :
    slotBlock d (newDir blk) s = if s = .direct 0 then blk else 0 := by
  cases s with
  | direct i =>
    by_cases hi : i = 0
    · subst hi
      simp [slotBlock, newDir, toNat_ofNat hblk]
    · simp [slotBlock, newDir, hi, blankDir, Inode.zero]
  | indirect => rfl
  | entry j => rfl
  | double => rfl
  | first j => rfl
  | second j j' => rfl

def newDirDisk (d : Mem) (ino blk parent : Nat) : Mem :=
  blit (writeBlock (Bitmap.set (Bitmap.set d (16384 + ino)) (24576 + blk)) blk (dirBlock ino parent))
    (11264 + 42 * ino) 42 (newDir blk).encode

theorem newDir_settles {blk : Nat} (parent : Nat) (h : Sound d (inodeAt d)) (hino : ino < 1032)
    (hfree : inodeBit d ino = false) (hblk : Fresh (Bitmap.set d (16384 + ino)) blk) :
    Settles c (fun _ => False) d (newDirDisk d ino blk parent) ∧
      Live (newDirDisk d ino blk parent) ino ∧ inodeAt (newDirDisk d ino blk parent) ino = newDir blk ∧
      ∀ k, 3072 ≤ k → k < 11264 →
        newDirDisk d ino blk parent k = Bitmap.set (Bitmap.set d (16384 + ino)) (24576 + blk) k := by
  obtain ⟨hsound, hlive, hlost, hkeeps⟩ := takeInode_sound h hino hfree blankDir_empty
  have hlow := hblk.low
  have hlinks := links_direct hblk (hsound.placed hlive) (i := 0) rfl
  have hlink := Grows.link (c := True) hsound hlive hlinks
  change Grows True ino _ blankDir _ (newDir blk) at hlink
  have hlive₂ := (hlink.live ino).mpr hlive
  -- the block is the new directory's only one
  have hslot : slotBlock (Bitmap.set (Bitmap.set d (16384 + ino)) (24576 + blk)) (newDir blk)
      (.direct 0) = blk := by
    rw [slotBlock_newDir hblk.high, if_pos rfl]
  have hwrite := Works.write (c := True) (b := blk) hlink.sound hlive₂ hlow
    (fun k _ hk => show writeBlock _ _ (dirBlock ino parent) k = _ from writeBlock_of_ne hk)
    fun i s hi heq => by
      have hunique := hlink.sound.unique hlive₂ hi (.direct 0) s
      rw [view_self, hslot] at hunique
      obtain ⟨rfl, rfl⟩ := hunique (by omega) heq
      exact ⟨rfl, id⟩
  have hcommit := Works.commit (c := True) hwrite.sound ((hwrite.live ino).mpr hlive₂)
  have hall := hlink.toWorks.trans (hwrite.trans hcommit)
  have hrec : inodeAt (newDirDisk d ino blk parent) ino = newDir blk := inodeAt_blit_self _ _ _
  have hview : view (newDirDisk d ino blk parent) ino (newDir blk) =
      inodeAt (newDirDisk d ino blk parent) := by
    rw [← hrec, view_inodeAt]
  have hdone := hall.sound
  have hlost' := hall.lost trivial
  change Sound (newDirDisk d ino blk parent) (view (newDirDisk d ino blk parent) ino _) at hdone
  change ∀ b, LostBlock (newDirDisk d ino blk parent) (view (newDirDisk d ino blk parent) ino _) b →
    _ at hlost'
  rw [hview] at hdone hlost'
  refine ⟨⟨hdone, fun _ b hb => hlost b (hlost' b hb), fun i hi _ => ?_⟩,
    (hall.live ino).mpr hlive, hrec, fun k hk hk' => ?_⟩
  · exact (hkeeps i hi).2.trans (hall.keeps (hkeeps i hi).1 (hkeeps i hi).2.live)
  · unfold newDirDisk
    rw [blit_of_lt (by omega), writeBlock_of_ne (by omega)]

theorem mkdir_cases {fs fs' : Fs} {name : Name} {r : Ret Nat} (hsb : fs.sb = layout total)
    (hrun : jexfsMkdir fs name = .ok (r, fs')) : (fs' = fs ∧ ∃ e, r = .error e) ∨
      (∃ ino, ino < 1032 ∧ inodeBit fs.disk ino = false ∧ (∃ e, r = .error e) ∧ fs' = { fs with
        disk := Bitmap.clear (Bitmap.set fs.disk (16384 + ino)) (16384 + ino) }) ∨
      ∃ ino blk a d', ino < 1032 ∧ inodeBit fs.disk ino = false ∧ ino ≠ 0 ∧ Fits ino ∧
        jexfsAllocBlock (layout total) (Bitmap.set fs.disk (16384 + ino)) =
          some (blk, Bitmap.set (Bitmap.set fs.disk (16384 + ino)) (24576 + blk)) ∧
        jexfsAddDirent (layout total) (newDirDisk fs.disk ino blk fs.cwd) fs.cwd ino name direntDir =
          .ok (a, d') ∧
        ((a = .ok () ∧ r = .ok 0 ∧ fs' = { fs with disk := d' }) ∨
          (∃ e, a = .error e ∧ r = .error e ∧ fs' = { fs with
            disk := Bitmap.clear (Bitmap.clear d' (16384 + ino)) (24576 + blk) })) := by
  obtain ⟨sb, d, cwd⟩ := fs
  subst hsb
  unfold jexfsMkdir at hrun
  split at hrun
  · cases hrun
    exact .inl ⟨rfl, _, rfl⟩
  split at hrun
  · cases hrun
    exact .inl ⟨rfl, _, rfl⟩
  cases halloc : jexfsAllocInode (layout total) d with
  | none =>
    rw [halloc] at hrun
    cases hrun
    exact .inl ⟨rfl, _, rfl⟩
  | some p =>
    obtain ⟨ino, d₁⟩ := p
    obtain ⟨hge, hlt, hfree, rfl⟩ := allocInode_cases halloc
    rw [halloc] at hrun
    dsimp only at hrun
    cases hblock : jexfsAllocBlock (layout total) (Bitmap.set d (16384 + ino)) with
    | none =>
      rw [hblock] at hrun
      simp only [bind_eq_ok] at hrun
      obtain ⟨d₂, hfreed, hret⟩ := hrun
      cases hret
      rw [freeInode_cases (by omega) hfreed]
      exact .inr (.inl ⟨ino, hlt, hfree, ⟨_, rfl⟩, rfl⟩)
    | some q =>
      obtain ⟨blk, d₂⟩ := q
      obtain ⟨hfresh, rfl, -⟩ := allocBlock_fresh hblock
      rw [hblock] at hrun
      simp only [bind_eq_ok] at hrun
      obtain ⟨d₃, hwrite, ⟨a, d'⟩, hadd, hend⟩ := hrun
      obtain ⟨hfits, rfl⟩ := writeInode_cases hlt hwrite
      refine .inr (.inr ⟨ino, blk, a, d', hlt, hfree, by omega, hfits, hblock, hadd, ?_⟩)
      have hlow := hfresh.low
      cases a with
      | ok u =>
        cases hend
        exact .inl ⟨rfl, rfl, rfl⟩
      | error e =>
        simp only [bind_eq_ok] at hend
        obtain ⟨d₄, hfreed, hret⟩ := hend
        cases hret
        rw [freeInode_cases (by omega) hfreed, freeBlock_eq (by omega)]
        exact .inr ⟨e, rfl, rfl, rfl⟩

theorem test_clear_set {i j : Nat} (h : Bitmap.test d i = false) :
    Bitmap.test (Bitmap.clear (Bitmap.set d i) i) j = Bitmap.test d j := by
  rw [Bitmap.test_clear, Bitmap.test_set]
  by_cases hj : j = i
  · subst hj
    simp [h]
  · simp [hj]

theorem freeNewDir_settles {blk : Nat} (h : Sound d (inodeAt d)) (hino : Live d ino) (hlow : 54 ≤ blk)
    (hhigh : blk < 65536) (hrec : inodeAt d ino = newDir blk) :
    Settles c (· = ino) d (Bitmap.clear (Bitmap.clear d (16384 + ino)) (24576 + blk)) ∧
      ∀ i, Live (Bitmap.clear (Bitmap.clear d (16384 + ino)) (24576 + blk)) i → Live d i ∧ i ≠ ino := by
  have hlt := hino.1
  have hbits : ∀ i, i < 1032 →
      inodeBit (Bitmap.clear (Bitmap.clear d (16384 + ino)) (24576 + blk)) i =
        (!decide (i = ino) && inodeBit d i) := by
    intro i hi
    have hother : 16384 + i ≠ 24576 + blk := by omega
    rw [← inodeBit_clear]
    unfold inodeBit
    rw [Bitmap.test_clear _ (24576 + blk)]
    simp [hother]
  refine ⟨release_settles h hino hbits (fun b => ?_) fun k hk => ?_, fun i hi => ?_⟩
  · have hbit : Used (Bitmap.clear d (16384 + ino)) b ↔ Used d b := used_congr fun k hk _ =>
      clear_of_ne (by omega)
    simp only [Used, blockBit_clear, Bool.and_eq_true, Bool.not_eq_true', decide_eq_false_iff_not] at hbit ⊢
    rw [hrec]
    constructor
    · rintro ⟨hb, hb', hne', hset⟩
      refine ⟨hbit.mp ⟨hb, hb', hset⟩, fun s heq => ?_⟩
      rw [slotBlock_newDir hhigh] at heq
      split at heq
      · exact hne' heq.symm
      · omega
    · rintro ⟨hb, hnone⟩
      obtain ⟨h1, h2, h3⟩ := hbit.mpr hb
      refine ⟨h1, h2, fun heq => ?_, h3⟩
      refine hnone (.direct 0) ?_
      rw [slotBlock_newDir hhigh, if_pos rfl, heq]
  · rw [clear_of_ne (by omega), clear_of_ne (by omega)]
  · obtain ⟨hlt', hbit⟩ := hi
    rw [hbits i hlt', Bool.and_eq_true, Bool.not_eq_true', decide_eq_false_iff_not] at hbit
    exact ⟨⟨hlt', hbit.2⟩, hbit.1⟩

theorem unmark_settles (h : Sound d (inodeAt d)) (hino : ino < 1032) (hfree : inodeBit d ino = false) :
    Settles c (fun _ => False) d (Bitmap.clear (Bitmap.set d (16384 + ino)) (16384 + ino)) := by
  have hsame : ∀ k, 3072 ≤ k →
      Bitmap.clear (Bitmap.set d (16384 + ino)) (16384 + ino) k = d k := by
    intro k hk
    rw [clear_of_ne (by omega), set_of_ne (by omega)]
  have hlive : ∀ i, Live (Bitmap.clear (Bitmap.set d (16384 + ino)) (16384 + ino)) i ↔ Live d i := by
    intro i
    simp only [Live, inodeBit]
    rw [test_clear_set hfree]
  have hkeeps : ∀ i, Live d i →
      Keeps i d (Bitmap.clear (Bitmap.set d (16384 + ino)) (16384 + ino)) := by
    intro i hi
    refine ⟨(hlive i).mpr hi, inodeAt_congr fun k hk _ => hsame k (by omega), fun s hs k _ => hsame _ ?_⟩
    have hge := (h.used hi hs).1
    omega
  obtain ⟨hsound, hlost⟩ := h.congr hlive (fun b => used_congr fun k hk _ => hsame k hk)
    fun i hi s => (hkeeps i hi).slots s
  exact ⟨hsound, fun _ b hb => (hlost b).mp hb, fun i hi _ => hkeeps i hi⟩

end Settles

end JexOs.JexFs
