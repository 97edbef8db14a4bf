import JexOs.Proof.JexFsEnter

/-!
# Disks whose directories are laid

Every allocated directory holds the entries one says it holds, in runs that enter names evenly, write to files
only, and delete neither the root nor the directory they work in.
-/

namespace JexOs.JexFs

open ByteMem Ownership Loop List Function

/-! ## Inodes that come and go -/

structure Moves (gone new : Nat → Prop) (d d' : Mem) : Prop where
  live : ∀ i, Live d' i ↔ (Live d i ∧ ¬gone i) ∨ new i
  kind : ∀ i, Live d i → ¬gone i → (inodeAt d' i).isDir = (inodeAt d i).isDir

section Moves

variable {c : Prop} {gone new touched : Nat → Prop} {idx ino : Nat} {d d' d'' : Mem}

theorem isDir_congr {v v' : Inode} (h : v'.mode = v.mode) : v'.isDir = v.isDir := by
  unfold Inode.isDir
  rw [h]

theorem Moves.refl : Moves (fun _ => False) (fun _ => False) d d :=
  { live := fun i => by simp only [not_false_eq_true, and_true, or_false]
    kind := fun _ _ _ => rfl }

theorem Settles.moves (h : Settles c touched d d') (htouched : ∀ i, Live d i → touched i → gone i)
    (hlive : ∀ i, Live d' i → (Live d i ∧ ¬gone i) ∨ new i) (hnew : ∀ i, new i → Live d' i) :
    Moves gone new d d' := by
  have hkeeps : ∀ i, Live d i → ¬gone i → Keeps i d d' := fun i hi hgone =>
    h.keeps i hi fun ht => hgone (htouched i hi ht)
  refine ⟨fun i => ⟨hlive i, ?_⟩, fun i hi hgone => by rw [(hkeeps i hi hgone).record]⟩
  rintro (⟨hi, hgone⟩ | hi)
  · exact (hkeeps i hi hgone).live
  · exact hnew i hi

theorem Works.kind (h : Works c idx d (inodeAt d idx) d' (inodeAt d' idx)) {i : Nat} (hi : Live d i) :
    (inodeAt d' i).isDir = (inodeAt d i).isDir := by
  by_cases heq : i = idx
  · subst heq
    exact isDir_congr h.mode
  · rw [h.inodeAt_eq hi.1 heq]

theorem Works.moves (h : Works c idx d (inodeAt d idx) d' (inodeAt d' idx)) :
    Moves (fun _ => False) (fun _ => False) d d' :=
  { live := fun i => by
      rw [h.live]
      simp only [not_false_eq_true, and_true, or_false]
    kind := fun i hi _ => h.kind hi }

theorem Moves.work (h : Moves gone new d d') (hworks : Works c idx d' (inodeAt d' idx) d'' (inodeAt d'' idx)) :
    Moves gone new d d'' :=
  { live := fun i => by rw [hworks.live, h.live]
    kind := fun i hi hgone => (hworks.kind ((h.live i).mpr (.inl ⟨hi, hgone⟩))).trans (h.kind i hi hgone) }

theorem Moves.undo (h : Moves (fun _ => False) (· = ino) d d') (h' : Moves (· = ino) (fun _ => False) d' d'')
    (hfree : ¬Live d ino) : Moves (fun _ => False) (fun _ => False) d d'' := by
  refine ⟨fun i => ?_, fun i hi _ => ?_⟩
  · rw [h'.live, h.live]
    constructor
    · rintro (⟨hi | hi, hne⟩ | hi)
      · exact .inl hi
      · exact absurd hi hne
      · exact hi.elim
    · rintro (hi | hi)
      · exact .inl ⟨.inl hi, fun heq => hfree (heq ▸ hi.1)⟩
      · exact hi.elim
  · have hlive := (h.live i).mpr (.inl ⟨hi, id⟩)
    exact (h'.kind i hlive fun heq => hfree (heq ▸ hi)).trans (h.kind i hi id)

theorem live_newInode {v : Inode} (hino : ino < 1032) {i : Nat}
    (hi : Live (blit (Bitmap.set d (16384 + ino)) (11264 + 42 * ino) 42 v.encode) i) : Live d i ∨ i = ino := by
  rw [live_congr fun k _ hk => blit_of_lt (by omega)] at hi
  obtain ⟨hlt, hbit⟩ := hi
  rw [inodeBit_set, Bool.or_eq_true, decide_eq_true_iff] at hbit
  rcases hbit with heq | hbit
  · exact .inr heq
  · exact .inl ⟨hlt, hbit⟩

theorem live_clear {i : Nat} (hi : Live (Bitmap.clear d (16384 + ino)) i) : Live d i ∧ i ≠ ino := by
  obtain ⟨hlt, hbit⟩ := hi
  rw [inodeBit_clear, Bool.and_eq_true, Bool.not_eq_true', decide_eq_false_iff_not] at hbit
  exact ⟨⟨hlt, hbit.2⟩, hbit.1⟩

end Moves

/-! ## New directories -/

def dots (ino parent : Nat) : List Entry :=
  [{ ino := ino, fileType := direntDir, name := [46] },
    { ino := parent, fileType := direntDir, name := [46, 46] }]

section NewDir

variable {ino blk parent : Nat} {d : Mem}

theorem dirBlock_block (hino : ino < 65536) (hparent : parent < 65536) :
    Block (dirBlock ino parent) (dots ino parent) := by
  have hdot : Block (blit zeroBlock 0 6 (dirent ino [46] direntDir))
      ([] ++ [{ ino := ino, fileType := direntDir, name := [46] }]) := by
    refine (Block.nil fun _ _ => rfl).append hino (cons_ne_nil _ _)
      (show 0 + (5 + 1) ≤ 1024 by decide) (fun k hk => ?_) fun k hk _ => ?_
    · exact blit_add (a := 0) hk
    · rcases hk with hlt | hge
      · exact absurd hlt (Nat.not_lt_zero k)
      · exact blit_of_ge hge
  refine hdot.append hparent (cons_ne_nil _ _) (show 6 + (5 + 2) ≤ 1024 by decide)
    (fun k hk => ?_) fun k hk _ => ?_
  · exact blit_add (a := 6) hk
  · rcases hk with hlt | hge
    · exact blit_of_lt hlt
    · exact blit_of_ge hge

theorem newDir_laid (hino : ino < 1032) (hparent : parent < 65536) (hlow : 54 ≤ blk) (hhigh : blk < 65536) :
    Laid (newDirDisk d ino blk parent) (newDir blk) [dots ino parent] := by
  have hmap : ∀ lb, jexfsBmap (newDirDisk d ino blk parent) (newDir blk) lb =
      if lb = 0 then blk else 0 := by
    intro lb
    by_cases hlb : lb < 262664
    · rw [bmap_mapSlot hlb, slotBlock_newDir hhigh]
      by_cases hzero : lb = 0
      · subst hzero
        rfl
      · rw [if_neg hzero, if_neg]
        intro heq
        exact hzero (mapSlot_inj hlb (by decide) (heq.trans rfl))
    · rw [bmap_past (by omega), if_neg (by omega)]
  refine ⟨fun lb => ?_, fun lb es hes => ?_, .inr ⟨_, by simp [dots], rfl, rfl⟩⟩
  · rw [hmap, length_singleton]
    split <;> omega
  · cases lb with
    | zero =>
      rw [getElem?_cons_zero, Option.some.injEq] at hes
      subst hes
      rw [hmap, if_pos rfl]
      refine (dirBlock_block (by omega) hparent).congr fun k hk => ?_
      unfold newDirDisk readBlock
      rw [blit_of_ge (by omega), writeBlock, blit_add hk]
    | succ lb => cases hes

end NewDir

/-! ## Disks in order -/

abbrev Content := Nat → List (List Entry)

/-- The accounting of the disk is sound, it has a root, and its directories hold `content` and have
records that can be read. -/
structure Orderly (d : Mem) (content : Content) : Prop where
  sound : Sound d (inodeAt d)
  root : Live d 1
  rootDir : (inodeAt d 1).isDir = true
  fits : ∀ i, Live d i → (inodeAt d i).isDir = true → Fits i
  laid : ∀ i, Live d i → (inodeAt d i).isDir = true → Laid d (inodeAt d i) (content i)

section Orderly

variable {c : Prop} {gone new touched : Nat → Prop} {total idx ino : Nat} {d d' : Mem}
  {content content' : Content} {blocks blocks' before after : List (List Entry)}
  {es es' : List Entry} {name : Name} {ft : UInt8}

theorem Orderly.work (h : Orderly d content) (hworks : Works c idx d (inodeAt d idx) d' (inodeAt d' idx))
    (hlaid : (inodeAt d' idx).isDir = true → Laid d' (inodeAt d' idx) blocks') :
    Orderly d' (Function.update content idx blocks') :=
  { sound := hworks.settles.sound
    root := (hworks.live 1).mpr h.root
    rootDir := (hworks.kind h.root).trans h.rootDir
    fits := fun i hi hdir => by
      have hold := (hworks.live i).mp hi
      exact h.fits i hold ((hworks.kind hold).symm.trans hdir)
    laid := by
      intro i hi hdir
      by_cases heq : i = idx
      · subst heq
        rw [update_self]
        exact hlaid hdir
      · have hold := (hworks.live i).mp hi
        have hkeeps := hworks.keeps heq hold
        rw [hkeeps.record] at hdir ⊢
        rw [update_of_ne heq]
        exact (h.laid i hold hdir).congr (hkeeps.dirAgree h.sound hold) }

theorem Orderly.move (h : Orderly d content) (hsettles : Settles c gone d d')
    (hmoves : Moves gone new d d') (hroot : ¬gone 1)
    (hcontent : ∀ i, Live d i → ¬gone i → content' i = content i)
    (hnew : ∀ i, new i → (inodeAt d' i).isDir = true → Laid d' (inodeAt d' i) (content' i) ∧ Fits i) :
    Orderly d' content' :=
  { sound := hsettles.sound
    root := (hmoves.live 1).mpr (.inl ⟨h.root, hroot⟩)
    rootDir := (hmoves.kind 1 h.root hroot).trans h.rootDir
    fits := fun i hi hdir => by
      rcases (hmoves.live i).mp hi with ⟨hold, hgone⟩ | hmade
      · exact h.fits i hold ((hmoves.kind i hold hgone).symm.trans hdir)
      · exact (hnew i hmade hdir).2
    laid := by
      intro i hi hdir
      rcases (hmoves.live i).mp hi with ⟨hold, hgone⟩ | hmade
      · have hkeeps := hsettles.keeps i hold hgone
        rw [hkeeps.record] at hdir ⊢
        rw [hcontent i hold hgone]
        exact (h.laid i hold hdir).congr (hkeeps.dirAgree h.sound hold)
      · exact (hnew i hmade hdir).1 }

theorem Orderly.add {r : Ret Unit} (h : Orderly d content) (hidx : Live d idx)
    (hdir : (inodeAt d idx).isDir = true) (hino : ino < 65536) (hname : nameLen name ≠ 0)
    (heven : AddsEvenly total d idx (nameLen name) 0)
    (hrun : jexfsAddDirent (layout total) d idx ino name ft = .ok (r, d')) :
    (∃ e, r = .error e ∧ Orderly d' content) ∨ (r = .ok () ∧ ∃ blocks',
      Adds (inodeAt d idx) (newEntry ino name ft) (content idx) blocks' ∧
        Orderly d' (Function.update content idx blocks') ∧
        (inodeAt d' idx = inodeAt d idx ∨ blocks'.length = (content idx).length + 1)) := by
  have hworks := addDirent_works h.sound hidx hrun
  rcases addDirent_laid (h.laid idx hidx hdir) h.sound hidx hino hname heven hrun with
    ⟨e, rfl, hlaid⟩ | ⟨rfl, blocks', hadds, hlaid, hsize⟩
  · have hafter := h.work hworks fun _ => hlaid
    rw [update_eq_self] at hafter
    exact .inl ⟨e, rfl, hafter⟩
  · exact .inr ⟨rfl, blocks', hadds, h.work hworks fun _ => hlaid, hsize⟩

theorem Laid.rewrite {buf : Mem} (h : Laid d (inodeAt d idx) (before ++ es :: after))
    (hsound : Sound d (inodeAt d)) (hidx : Live d idx) (hblock : Block buf es')
    (hspan : direntFormat.span es' = direntFormat.span es) (hne : es' ≠ []) :
    let d' := writeBlock d (jexfsBmap d (inodeAt d idx) before.length) buf
    Laid d' (inodeAt d' idx) (before ++ es' :: after) := by
  refine h.blit (n := 1024) 0 buf hsound hidx (by decide) ?_ (.inr ⟨hne, hspan⟩)
  exact hblock.congr fun k hk => by
    rw [readBlock_blit, blit_of_mem (Nat.zero_le k) (by omega), Nat.sub_zero]

theorem Orderly.rewrite {buf : Mem} (h : Orderly d content) (hidx : Live d idx)
    (hdir : (inodeAt d idx).isDir = true) (hcontent : content idx = before ++ es :: after)
    (hblock : Block buf es') (hspan : direntFormat.span es' = direntFormat.span es) (hne : es' ≠ []) :
    let d' := writeBlock d (jexfsBmap d (inodeAt d idx) before.length) buf
    Orderly d' (Function.update content idx (before ++ es' :: after)) ∧
      Works True idx d (inodeAt d idx) d' (inodeAt d' idx) ∧ inodeAt d' idx = inodeAt d idx := by
  have hlaid := h.laid idx hidx hdir
  rw [hcontent] at hlaid
  have hworks := edit_works (c := True) buf h.sound hidx hlaid.mapped_at
  obtain ⟨hrec, -⟩ := bmap_edit (n := 1024) buf h.sound hidx hlaid.mapped_at le_rfl le_rfl
  exact ⟨h.work hworks fun _ => hlaid.rewrite h.sound hidx hblock hspan hne, hworks, hrec⟩

theorem AddsEvenly.of_keeps {len taken n : Nat} (h : AddsEvenly total d idx len (n + taken))
    (hkeeps : Keeps idx d d') (hsound : Sound d (inodeAt d)) (hidx : Live d idx)
    (hfree : ∀ b ∈ freeBlocksLeft total d', b ∈ freeBlocksLeft total d ∧
      freeBefore total d b = n + freeBefore total d' b ∧
      ∀ k, k < 1024 → d' (1024 * b + k) = d (1024 * b + k)) : AddsEvenly total d' idx len taken := by
  have hagree := hkeeps.dirAgree hsound hidx
  refine ⟨fun off hslot => ?_, fun hslot => ?_⟩
  · rw [hkeeps.record, findSlot_congr hagree] at hslot
    obtain ⟨-, hmapped, hin⟩ := findSlot_found hslot
    have hold := h.reuse off hslot
    rw [hkeeps.record, hagree.bmap]
    have hsame : load16 (readBlock d' (jexfsBmap d (inodeAt d idx) (off / 1024))) (off % 1024 + 2) =
        load16 (readBlock d (jexfsBmap d (inodeAt d idx) (off / 1024))) (off % 1024 + 2) :=
      load16_congr fun k _ hk => hagree.contents _ hmapped k (by omega)
    rwa [hsame]
  · rw [hkeeps.record, findSlot_congr hagree] at hslot
    obtain ⟨hhole, hclear⟩ := h.grow hslot
    rw [hkeeps.record]
    simp only [hagree.bmap]
    refine ⟨hhole, fun b hb hbefore k hk => ?_⟩
    obtain ⟨hb', hcount, hsame⟩ := hfree b hb
    rw [hsame k hk]
    exact hclear b hb' (by rw [hcount, hbefore, Nat.add_assoc]) k hk

end Orderly

/-! ## The calls -/

structure Leaves (gone new : Nat → Prop) (fs fs' : Fs) (content : Content) : Prop where
  sb : fs'.sb = fs.sb
  cwd : fs'.cwd = fs.cwd
  moves : Moves gone new fs.disk fs'.disk
  orderly : Orderly fs'.disk content

structure Entered (fs : Fs) (name : Name) (ft : UInt8) (blocks : List (List Entry)) (ino : Nat)
    (blocks' : List (List Entry)) : Prop where
  free : ¬Live fs.disk ino
  nonzero : ino ≠ 0
  adds : Adds (inodeAt fs.disk fs.cwd) (newEntry ino name ft) blocks blocks'

section Create

variable {total : Nat} {fs fs' : Fs} {content : Content} {name : Name} {r : Ret Nat}

theorem create_orderly (hsb : fs.sb = layout total) (hcwd : Live fs.disk fs.cwd)
    (hdir : (inodeAt fs.disk fs.cwd).isDir = true) (h : Orderly fs.disk content)
    (heven : (∃ n, jexfsOpen fs name = .ok (.ok n)) ∨
      (nameLen name ≠ 0 ∧ AddsEvenly total fs.disk fs.cwd (nameLen name) 0))
    (hrun : jexfsCreate fs name = .ok (r, fs')) :
    (Leaves (fun _ => False) (fun _ => False) fs fs' content ∧ ((∃ e, r = .error e) ∨ fs' = fs)) ∨
      ∃ ino blocks', r = .ok ino ∧ (∃ e, jexfsOpen fs name = .ok (.error e)) ∧
        Entered fs name direntFile (content fs.cwd) ino blocks' ∧
        Leaves (fun _ => False) (· = ino) fs fs' (Function.update content fs.cwd blocks') := by
  obtain ⟨sb, d, cwd⟩ := fs
  subst hsb
  rcases create_cases rfl hrun with ⟨rfl, -⟩ | ⟨ino, a, d', hlt, hfree, hzero, -, hopen, hadd, hend⟩
  · exact .inl ⟨⟨rfl, rfl, Moves.refl, h⟩, .inr rfl⟩
  obtain ⟨hname, heven⟩ := heven.resolve_left fun ⟨n, hn⟩ => by
    obtain ⟨e, he⟩ := hopen
    rw [hn] at he
    cases he
  have hnot : ¬Live d ino := fun hlive => by
    rw [hlive.2] at hfree
    cases hfree
  obtain ⟨hnew, hino, hrec, hbits⟩ := newInode_settles (c := True) h.sound hlt hfree newFile_empty
  have hmoves : Moves (fun _ => False) (· = ino) d
      (blit (Bitmap.set d (16384 + ino)) (11264 + 42 * ino) 42 newFile.encode) :=
    hnew.moves (fun _ _ => id) (fun i hi => (live_newInode hlt hi).imp_left fun hi' => ⟨hi', id⟩)
      fun i hi => hi ▸ hino
  have hdata : ∀ k, 55296 ≤ k →
      blit (Bitmap.set d (16384 + ino)) (11264 + 42 * ino) 42 newFile.encode k = d k := by
    intro k hk
    rw [blit_of_ge (by omega), set_of_ne (by omega)]
  generalize blit (Bitmap.set d (16384 + ino)) (11264 + 42 * ino) 42 newFile.encode = d₁ at *
  have hkept := hnew.keeps cwd hcwd id
  have horderly : Orderly d₁ content := h.move hnew hmoves id (fun _ _ _ => rfl) fun i hi hisDir => by
    rw [hi, hrec] at hisDir
    cases hisDir
  have hdir₁ : (inodeAt d₁ cwd).isDir = true := by rw [hkept.record, hdir]
  have heven₁ : AddsEvenly total d₁ cwd (nameLen name) 0 := by
    refine AddsEvenly.of_keeps (n := 0) heven hkept h.sound hcwd fun b hb => ?_
    rw [freeBlocksLeft_congr hbits] at hb
    refine ⟨hb, by rw [freeBefore_congr hbits, Nat.zero_add], fun k hk => hdata _ ?_⟩
    rw [freeBlocksLeft, Finset.mem_filter, Finset.mem_Ico] at hb
    omega
  have hworks := addDirent_works horderly.sound hkept.live hadd
  rcases horderly.add hkept.live hdir₁ (by omega) hname heven₁ hadd with
    ⟨e, rfl, horderly'⟩ | ⟨rfl, blocks', hadds, horderly', -⟩
  · rcases hend with ⟨hok, -⟩ | ⟨e', -, rfl, rfl⟩
    · cases hok
    · -- the inode is given back
      have hne : ino ≠ cwd := by
        rintro rfl
        exact hnot hcwd
      have hempty : (inodeAt d' ino).Empty := by
        rw [hworks.inodeAt_eq hlt hne, hrec]
        exact newFile_empty
      have hfreed := freeInode_settles (c := True) horderly'.sound ((hworks.live ino).mpr hino) hempty
      have hback : Moves (· = ino) (fun _ => False) d' (Bitmap.clear d' (16384 + ino)) :=
        hfreed.moves (fun _ _ => id) (fun i hi => .inl (live_clear hi)) fun i hi => hi.elim
      have hroot : 1 ≠ ino := by
        rintro rfl
        exact hnot h.root
      exact .inl ⟨⟨rfl, rfl, (hmoves.work hworks).undo hback hnot,
        horderly'.move hfreed hback hroot (fun _ _ _ => rfl) fun i hi => hi.elim⟩, .inl ⟨e', rfl⟩⟩
  · rcases hend with ⟨-, rfl, rfl⟩ | ⟨e', hok, -⟩
    · rw [hkept.record] at hadds
      exact .inr ⟨ino, blocks', rfl, hopen, ⟨hnot, hzero, hadds⟩, ⟨rfl, rfl, hmoves.work hworks, horderly'⟩⟩
    · cases hok

theorem mkdir_orderly (hsb : fs.sb = layout total) (hcwd : Live fs.disk fs.cwd)
    (hdir : (inodeAt fs.disk fs.cwd).isDir = true) (h : Orderly fs.disk content)
    (hname : nameLen name ≠ 0) (heven : AddsEvenly total fs.disk fs.cwd (nameLen name) 1)
    (hrun : jexfsMkdir fs name = .ok (r, fs')) :
    (Leaves (fun _ => False) (fun _ => False) fs fs' content ∧ ∃ e, r = .error e) ∨ ∃ ino blocks', r = .ok 0 ∧
      Entered fs name direntDir (content fs.cwd) ino blocks' ∧ Leaves (fun _ => False) (· = ino) fs fs'
        (Function.update (Function.update content ino [dots ino fs.cwd]) fs.cwd blocks') := by
  obtain ⟨sb, d, cwd⟩ := fs
  dsimp only at hsb hcwd hdir h heven
  subst hsb
  rcases mkdir_cases rfl hrun with ⟨rfl, herr⟩ | ⟨ino, hlt, hfree, herr, rfl⟩ |
    ⟨ino, blk, a, d', hlt, hfree, hzero, hfits, halloc, hadd, hend⟩
  · exact .inl ⟨⟨rfl, rfl, Moves.refl, h⟩, herr⟩
  · have hunmark := unmark_settles (c := True) h.sound hlt hfree
    have hmoves : Moves (fun _ => False) (fun _ => False) d
        (Bitmap.clear (Bitmap.set d (16384 + ino)) (16384 + ino)) := by
      refine hunmark.moves (fun _ _ => id) (fun i hi => .inl ⟨?_, id⟩) fun i hi => hi.elim
      simp only [Live, inodeBit] at hi ⊢
      rwa [test_clear_set hfree] at hi
    exact .inl ⟨⟨rfl, rfl, hmoves, h.move hunmark hmoves id (fun _ _ _ => rfl) fun i hi => hi.elim⟩, herr⟩
  obtain ⟨hfresh, -, -⟩ := allocBlock_fresh halloc
  have hlow := hfresh.low
  have hhigh := hfresh.high
  have hnot : ¬Live d ino := fun hlive => by
    rw [hlive.2] at hfree
    cases hfree
  have hne : ino ≠ cwd := by
    rintro rfl
    exact hnot hcwd
  obtain ⟨hnew, hino, hrec, hbits⟩ := newDir_settles (c := True) cwd h.sound hlt hfree hfresh
  have hlaid := newDir_laid (d := d) hlt (show cwd < 65536 by have := hcwd.1; omega) hlow hhigh
  have hmoves : Moves (fun _ => False) (· = ino) d (newDirDisk d ino blk cwd) := by
    refine hnew.moves (fun _ _ => id) (fun i hi => ?_) fun i hi => hi ▸ hino
    refine (live_newInode (v := newDir blk) hlt ((live_congr fun k hk hk' => ?_).mp hi)).imp_left
      fun hi' => ⟨hi', id⟩
    unfold newDirDisk
    rw [blit_of_lt (by omega), blit_of_lt (by omega), writeBlock_of_ne (by omega), set_of_ne (by omega)]
  have hdata : ∀ k, 55296 ≤ k → k / 1024 ≠ blk → newDirDisk d ino blk cwd k = d k := by
    intro k hk hne
    unfold newDirDisk
    rw [blit_of_ge (by omega), writeBlock_of_ne hne, set_of_ne (by omega), set_of_ne (by omega)]
  generalize newDirDisk d ino blk cwd = d₁ at *
  have hkept := hnew.keeps cwd hcwd id
  have horderly : Orderly d₁ (Function.update content ino [dots ino cwd]) := by
    refine h.move hnew hmoves id (fun i hi _ => ?_) fun i hi _ => ?_
    · refine update_of_ne ?_ _ _
      rintro rfl
      exact hnot hi
    · rw [hi, update_self, hrec]
      exact ⟨hlaid, hfits⟩
  have hdir₁ : (inodeAt d₁ cwd).isDir = true := by rw [hkept.record, hdir]
  have heven₁ : AddsEvenly total d₁ cwd (nameLen name) 0 := by
    refine AddsEvenly.of_keeps (n := 1) heven hkept h.sound hcwd fun b hb => ?_
    have hset : ∀ k, 3072 ≤ k → k < 11264 → Bitmap.set d (16384 + ino) k = d k :=
      fun k hk _ => set_of_ne (by omega)
    obtain ⟨-, herase⟩ := allocBlock_erase halloc
    have hbefore := (freeBefore_alloc halloc).2 b
    rw [freeBlocksLeft_congr hset] at herase
    rw [freeBefore_congr hset] at hbefore
    rw [freeBlocksLeft_congr hbits] at hb
    have hcount := hbefore hb
    rw [herase, Finset.mem_erase] at hb
    refine ⟨hb.2, by rw [hcount, freeBefore_congr hbits, Nat.add_comm], fun k hk => hdata _ ?_ ?_⟩
    · have hb' := hb.2
      rw [freeBlocksLeft, Finset.mem_filter, Finset.mem_Ico] at hb'
      omega
    · omega
  have hworks := addDirent_works horderly.sound hkept.live hadd
  rcases horderly.add hkept.live hdir₁ (by omega) hname heven₁ hadd with
    ⟨e, rfl, horderly'⟩ | ⟨rfl, blocks', hadds, horderly', -⟩
  · rcases hend with ⟨hok, -⟩ | ⟨e', -, rfl, rfl⟩
    · cases hok
    · -- the inode and its block are given back
      have hrec' : inodeAt d' ino = newDir blk := by rw [hworks.inodeAt_eq hlt hne, hrec]
      obtain ⟨hfreed, hgone⟩ := freeNewDir_settles (c := True) horderly'.sound
        ((hworks.live ino).mpr hino) hlow hhigh hrec'
      have hback : Moves _ (fun _ => False) _ _ := hfreed.moves (fun _ _ => id)
        (fun i hi => .inl (hgone i hi)) fun i hi => hi.elim
      have hall := (hmoves.work hworks).undo hback hnot
      refine .inl ⟨⟨rfl, rfl, hall, ?_⟩, e', rfl⟩
      have hroot : 1 ≠ ino := by
        rintro rfl
        exact hnot h.root
      refine horderly'.move hfreed hback hroot (fun i hi hi' => ?_) fun i hi => hi.elim
      exact (update_of_ne hi' _ _).symm
  · rcases hend with ⟨-, rfl, rfl⟩ | ⟨e', hok, -⟩
    · rw [hkept.record, update_of_ne (Ne.symm hne)] at hadds
      exact .inr ⟨ino, blocks', rfl, ⟨hnot, hzero, hadds⟩, ⟨rfl, rfl, hmoves.work hworks, horderly'⟩⟩
    · cases hok

end Create

section Write

variable {total idx size offset : Nat} {fs : Fs} {d' : Mem} {content : Content} {buffer : Mem}
  {r : Ret Nat}

theorem write_orderly (h : Orderly fs.disk content) (hidx : Live fs.disk idx)
    (hfile : (inodeAt fs.disk idx).isDir = false)
    (hrun : jexfsWrite (layout total) fs.disk idx buffer size offset = .ok (r, d')) :
    Leaves (fun _ => False) (fun _ => False) fs { fs with disk := d' } content := by
  have hworks := write_works h.sound hidx hrun
  have hafter : Orderly d' (Function.update content idx (content idx)) := h.work hworks fun hdir => by
    rw [hworks.kind hidx, hfile] at hdir
    cases hdir
  rw [update_eq_self] at hafter
  exact ⟨rfl, rfl, hworks.moves, hafter⟩

end Write

/-! ## Changing an entry in place -/

section Entries

variable {buf : Mem} {pre post : List Entry} {e : Entry} {name : Name}

theorem Block.delete (h : Block buf (pre ++ e :: post)) :
    Block (store16 buf (direntFormat.span pre) 0) (pre ++ { e with ino := 0 } :: post) := by
  refine h.replace (show 0 < 65536 by decide) rfl (fun k hk => ?_) fun k hk _ => ?_
  · unfold dirent
    by_cases hino : k < 2
    · rw [if_pos hino]
      exact blit_add hino
    · rw [if_neg hino, store16, blit_of_ge (by omega), h.middle hk, dirent, if_neg hino]
  · rcases hk with hlt | hge
    · exact blit_of_lt hlt
    · exact blit_of_ge (by omega)

theorem Block.rename (h : Block buf (pre ++ e :: post)) (hlen : JexFs.nameLen name = e.name.length) :
    Block (blit (store16 buf (direntFormat.span pre + 2) (JexFs.nameLen name))
        (direntFormat.span pre + 5) (JexFs.nameLen name) fun k => name.getD k 0)
      (pre ++ { e with name := name.take (JexFs.nameLen name) } :: post) := by
  have htake := length_take_nameLen name
  have hnameLen : JexFs.nameLen (name.take (JexFs.nameLen name)) = JexFs.nameLen name := by
    unfold JexFs.nameLen at htake ⊢
    rw [htake, Nat.mod_mod]
  have hino := (h.sized e (by simp)).1
  refine h.replace hino (htake.trans hlen) (fun k hk => ?_) fun k hk _ => ?_
  · have hold := h.middle hk
    unfold dirent at hold ⊢
    rw [hnameLen]
    by_cases hhead : k < 2
    · rw [if_pos hhead] at hold ⊢
      rw [blit_of_lt (by omega), store16, blit_of_lt (by omega), hold]
    by_cases hlength : k < 4
    · rw [if_neg hhead, if_pos hlength, blit_of_lt (by omega), store16, blit_of_mem (by omega) (by omega)]
      congr 1
      omega
    by_cases htype : k = 4
    · rw [if_neg hhead, if_neg hlength, if_pos htype] at hold ⊢
      rw [blit_of_lt (by omega), store16, blit_of_ge (by omega), hold]
    · rw [if_neg hhead, if_neg hlength, if_neg htype, blit_of_mem (by omega) (by omega)]
      simp only [getD_eq_getElem?_getD, getElem?_take]
      rw [if_pos (by omega)]
      congr 2
      omega
  · rcases hk with hlt | hge
    · rw [blit_of_lt (by omega), store16, blit_of_lt (by omega)]
    · rw [blit_of_ge (by omega), store16, blit_of_ge (by omega)]

end Entries

section Restore

variable {phys : Nat} {d : Mem} {pre post : List Entry} {e : Entry} {name : Name}

theorem Entry.Names.length (h : e.Names name) : e.name.length = JexFs.nameLen name := by
  rw [h.2, length_take_nameLen]

theorem Block.restore (h : Block (readBlock d phys) (pre ++ e :: post)) (hnames : e.Names name) :
    Block (restoredEntry d phys (direntFormat.span pre) name) (pre ++ e :: post) := by
  have hlen := hnames.length
  have hino := (h.sized e (by simp)).1
  unfold restoredEntry
  rw [h.ino]
  refine h.replace hino rfl (fun k hk => ?_) fun k hk _ => ?_
  · have hold := h.middle hk
    unfold dirent at hold ⊢
    by_cases hhead : k < 2
    · rw [if_pos hhead, blit_of_lt (by omega), store16, blit_of_lt (by omega), store16, blit_add hhead]
    by_cases hlength : k < 4
    · rw [if_neg hhead, if_pos hlength, h.nameLen, hlen, blit_of_lt (by omega), store16,
        blit_of_mem (by omega) (by omega)]
      congr 1
      omega
    by_cases htype : k = 4
    · rw [blit_of_lt (by omega), store16, blit_of_ge (by omega), store16, blit_of_ge (by omega), store16,
        blit_of_ge (by omega), hold]
    · rw [if_neg hhead, if_neg hlength, if_neg htype, blit_of_mem (by omega) (by omega), hnames.2]
      simp only [getD_eq_getElem?_getD, getElem?_take]
      rw [if_pos (by omega)]
      congr 2
      omega
  · rcases hk with hlt | hge
    · rw [blit_of_lt (by omega), store16, blit_of_lt (by omega), store16, blit_of_lt (by omega), store16,
        blit_of_lt (by omega)]
    · rw [blit_of_ge (by omega), store16, blit_of_ge (by omega), store16, blit_of_ge (by omega), store16,
        blit_of_ge (by omega)]

end Restore

/-! ## Removing and renaming -/

section Remove

variable {c : Prop} {total idx : Nat} {d : Mem} {fs fs' : Fs} {content : Content}
  {name oldName newName : Name} {r : Ret Nat} {phys bo : Nat} {before after : List (List Entry)}
    {pre post : List Entry} {e : Entry}

theorem findEntry_found (hread : jexfsReadInode (layout total) d idx = .ok (inodeAt d idx))
    (hdir : (inodeAt d idx).isDir = true)
    (hsearch : searchDir d (inodeAt d idx) name = .ok (some (phys, bo))) :
    jexfsFindEntry (layout total) d idx name = .ok (.ok (load16 (readBlock d phys) bo)) := by
  have hnot : ¬(!(inodeAt d idx).isDir) = true := by
    rw [hdir]
    decide
  simp only [jexfsFindEntry, bind_eq_ok]
  refine ⟨_, hread, ?_⟩
  rw [if_neg hnot]
  simp only [bind_eq_ok]
  exact ⟨_, hsearch, rfl⟩

def deleted (before : List (List Entry)) (pre : List Entry) (e : Entry) (post : List Entry)
    (after : List (List Entry)) : List (List Entry) :=
  before ++ (pre ++ { e with ino := 0 } :: post) :: after

theorem span_delete (pre : List Entry) (e : Entry) (post : List Entry) :
    direntFormat.span (pre ++ { e with ino := 0 } :: post) = direntFormat.span (pre ++ e :: post) := by
  rw [Format.span_append, Format.span_cons, Format.span_append, Format.span_cons]
  rfl

theorem span_rename (hlen : nameLen name = e.name.length) :
    direntFormat.span (pre ++ { e with name := name.take (nameLen name) } :: post) =
      direntFormat.span (pre ++ e :: post) := by
  have hsize : direntFormat.size { e with name := name.take (nameLen name) } = direntFormat.size e :=
    congrArg (5 + ·) ((length_take_nameLen name).trans hlen)
  rw [Format.span_append, Format.span_cons, Format.span_append, Format.span_cons, hsize]

theorem Orderly.hit (h : Orderly d content) (hidx : Live d idx) (hdir : (inodeAt d idx).isDir = true)
    (hsearch : searchDir d (inodeAt d idx) name = .ok (some (phys, bo))) : ∃ before pre e post after,
      Hit d (inodeAt d idx) (content idx) name phys bo before pre e post after := by
  rcases searchDir_laid (h.laid idx hidx hdir) hsearch with
    ⟨hnone, -⟩ | ⟨phys', bo', before, pre, e, post, after, hsome, hhit⟩
  · cases hnone
  · cases hsome
    exact ⟨before, pre, e, post, after, hhit⟩

theorem Hit.block {blocks : List (List Entry)} {di : Inode}
    (hit : Hit d di blocks name phys bo before pre e post after) (h : Laid d di blocks) :
    Block (readBlock d phys) (pre ++ e :: post) := by
  rw [hit.lies] at h
  rw [hit.phys]
  exact h.at

theorem remove_findEntry (hsb : fs.sb = layout total) (hcwd : Live fs.disk fs.cwd)
    (hdir : (inodeAt fs.disk fs.cwd).isDir = true) (hrun : jexfsRemove fs name = .ok (r, fs'))
    (hname : name ≠ [])
    (hsearch : searchDir fs.disk (inodeAt fs.disk fs.cwd) name = .ok (some (phys, bo))) :
    jexfsFindEntry fs.sb fs.disk fs.cwd name = .ok (.ok (load16 (readBlock fs.disk phys) bo)) := by
  unfold jexfsRemove at hrun
  rw [if_neg hname] at hrun
  simp only [bind_eq_ok] at hrun
  obtain ⟨di, hread, -⟩ := hrun
  rw [hsb] at hread ⊢
  rcases readInode_cases hread with ⟨hge, -⟩ | ⟨-, -, rfl⟩
  · exact absurd hcwd.1 (by omega)
  · exact findEntry_found hread hdir hsearch

theorem remove_orderly (hsb : fs.sb = layout total) (hcwd : Live fs.disk fs.cwd)
    (hdir : (inodeAt fs.disk fs.cwd).isDir = true) (h : Orderly fs.disk content)
    (htarget : ∀ n, jexfsFindEntry fs.sb fs.disk fs.cwd name = .ok (.ok n) →
      Live fs.disk n ∧ n ≠ 1 ∧ n ≠ fs.cwd)
    (hrun : jexfsRemove fs name = .ok (r, fs')) :
    (fs' = fs ∧ ∃ e, r = .error e) ∨ ∃ phys bo before pre e post after,
      Hit fs.disk (inodeAt fs.disk fs.cwd) (content fs.cwd) name phys bo before pre e post after ∧
        r = .ok 0 ∧ Live fs.disk e.ino ∧ e.ino ≠ 1 ∧ e.ino ≠ fs.cwd ∧
        Leaves (· = e.ino) (fun _ => False) fs fs'
          (Function.update content fs.cwd (deleted before pre e post after)) ∧
        inodeAt fs'.disk fs.cwd = inodeAt fs.disk fs.cwd := by
  by_cases hname : name = []
  · unfold jexfsRemove at hrun
    rw [if_pos hname] at hrun
    cases hrun
    exact .inl ⟨rfl, _, rfl⟩
  have hfound := fun phys bo
      (hsearch : searchDir fs.disk (inodeAt fs.disk fs.cwd) name = .ok (some (phys, bo))) => htarget _
    (remove_findEntry hsb hcwd hdir hrun hname hsearch)
  rcases remove_cases hsb hcwd (fun phys bo hsearch => (hfound phys bo hsearch).1) hrun with
    ⟨rfl, herr⟩ | ⟨phys, bo, hsearch, rfl, hfs'⟩
  · exact .inl ⟨rfl, herr⟩
  obtain ⟨before, pre, e, post, after, hhit⟩ := h.hit hcwd hdir hsearch
  have hlaid := h.laid _ hcwd hdir
  have hblock := hhit.block hlaid
  have htarget' := hfound phys bo hsearch
  rw [(hhit.entry hlaid).1] at hfs' htarget'
  obtain ⟨hino, hroot, hself⟩ := htarget'
  obtain ⟨hfreed, -, hgone⟩ := freedDisk_settles (c := True) total h.sound hino
  have hmoves : Moves _ (fun _ => False) _ _ := hfreed.moves (fun _ _ => id)
    (fun i hi => .inl (hgone i hi)) fun i hi => hi.elim
  have hmid := h.move hfreed hmoves (Ne.symm hroot) (fun _ _ _ => rfl) fun i hi => hi.elim
  have hkept := hfreed.keeps fs.cwd hcwd (Ne.symm hself)
  have hmap : jexfsBmap (freedDisk total fs.disk e.ino) (inodeAt (freedDisk total fs.disk e.ino) fs.cwd)
      before.length = phys := by
    rw [hkept.record, (hkept.dirAgree h.sound hcwd).bmap, hhit.phys]
  obtain ⟨hafter, hworks, hrec⟩ := hmid.rewrite hkept.live (by rw [hkept.record, hdir]) hhit.lies
    hblock.delete (span_delete pre e post) (by simp)
  rw [hmap, ← hhit.bo] at hafter hworks hrec
  subst hfs'
  exact .inr ⟨phys, bo, before, pre, e, post, after, hhit, rfl, hino, hroot, hself,
    ⟨rfl, rfl, hmoves.work hworks, hafter⟩, hrec.trans hkept.record⟩

/-- A name is changed evenly when the new name is as long as the old one, or longer and entered evenly
once the old entry is deleted. -/
def RenamesEvenly (total : Nat) (d : Mem) (idx : Nat) (oldName newName : Name) : Prop :=
  ∀ phys bo, searchDir d (inodeAt d idx) oldName = .ok (some (phys, bo)) →
    nameLen newName = nameLen oldName ∨ (nameLen oldName < nameLen newName ∧
      AddsEvenly total (deleteEntry d phys bo) idx (nameLen newName) 0)

theorem deleteEntry_orderly (h : Orderly d content) (hidx : Live d idx) (hdir : (inodeAt d idx).isDir = true)
    (hhit : Hit d (inodeAt d idx) (content idx) name phys bo before pre e post after) :
    Orderly (deleteEntry d phys bo) (Function.update content idx (deleted before pre e post after)) ∧
      Works True idx d (inodeAt d idx) (deleteEntry d phys bo) (inodeAt (deleteEntry d phys bo) idx) ∧
      inodeAt (deleteEntry d phys bo) idx = inodeAt d idx := by
  have hblock := hhit.block (h.laid _ hidx hdir)
  have hall := h.rewrite hidx hdir hhit.lies hblock.delete (span_delete pre e post) (by simp)
  rwa [← hhit.phys, ← hhit.bo] at hall

theorem reenter_orderly {a : Ret Unit} {d' : Mem} (h : Orderly d content) (hidx : Live d idx)
    (hdir : (inodeAt d idx).isDir = true)
    (hhit : Hit d (inodeAt d idx) (content idx) oldName phys bo before pre e post after)
    (hname : nameLen newName ≠ 0)
    (heven : AddsEvenly total (deleteEntry d phys bo) idx (nameLen newName) 0)
    (hadd : jexfsAddDirent (layout total) (deleteEntry d phys bo) idx e.ino newName direntFile = .ok (a, d')) :
    ((∃ err, a = .error err) ∧ ∃ d'', d'' = writeBlock d' phys (restoredEntry d phys bo oldName) ∧
      Moves (fun _ => False) (fun _ => False) d d'' ∧ Orderly d'' content) ∨
    (a = .ok () ∧ ∃ blocks',
      Adds (inodeAt d idx) (newEntry e.ino newName direntFile) (deleted before pre e post after) blocks' ∧
      Moves (fun _ => False) (fun _ => False) d d' ∧ Orderly d' (Function.update content idx blocks') ∧
      (inodeAt d' idx = inodeAt d idx ∨ blocks'.length = (content idx).length + 1)) := by
  have hblock := hhit.block (h.laid _ hidx hdir)
  obtain ⟨hmid, hworks, hrec⟩ := deleteEntry_orderly h hidx hdir hhit
  have hlive := (hworks.live idx).mpr hidx
  have hboth := (hworks.weaken fun _ => trivial).trans (addDirent_works hmid.sound hlive hadd)
  have hlength : (deleted before pre e post after).length = (content idx).length := by
    rw [hhit.lies, deleted, length_append, length_append, length_cons, length_cons]
  rcases hmid.add hlive (by rw [hrec, hdir]) (hblock.sized e (by simp)).1 hname heven hadd with
    ⟨err, rfl, hmid'⟩ | ⟨rfl, blocks', hnew, hafter, hsize⟩
  · -- the entry is put back
    have hview : Sound d (view d idx (inodeAt d idx)) := by
      rw [view_inodeAt]
      exact h.sound
    have hlaid := h.laid _ hidx hdir
    rw [hhit.lies] at hlaid
    have hlive' := (hboth.live idx).mpr hidx
    obtain ⟨hdirect, hslot, -, -⟩ := hview.mapped hidx hlaid.mapped_at
    have hsame : jexfsBmap d' (inodeAt d' idx) before.length = phys := by
      rw [bmap_eq hdirect, hboth.kept _ (hslot ▸ hlaid.mapped_at)]
      exact hslot.symm.trans hhit.phys.symm
    obtain ⟨hback, hworks', -⟩ := hmid'.rewrite hlive' (by rw [hboth.kind hidx, hdir])
      (update_self _ _ _) (hblock.restore hhit.names) (span_delete pre e post).symm (by simp)
    rw [hsame, ← hhit.bo] at hback hworks'
    rw [update_idem, ← hhit.lies, update_eq_self] at hback
    exact .inl ⟨⟨err, rfl⟩, _, rfl, hboth.moves.work hworks', hback⟩
  · rw [update_self, hrec] at hnew
    rw [update_self, hlength, hrec] at hsize
    rw [update_idem] at hafter
    exact .inr ⟨rfl, blocks', hnew, hboth.moves, hafter, hsize⟩

theorem rename_orderly (hsb : fs.sb = layout total) (hcwd : Live fs.disk fs.cwd)
    (hdir : (inodeAt fs.disk fs.cwd).isDir = true) (h : Orderly fs.disk content)
    (heven : RenamesEvenly total fs.disk fs.cwd oldName newName)
    (hrun : jexfsRename fs oldName newName = .ok (r, fs')) :
    (fs' = fs ∧ r = .error .enoent) ∨ ∃ phys bo before pre e post after,
      searchDir fs.disk (inodeAt fs.disk fs.cwd) oldName = .ok (some (phys, bo)) ∧
      Hit fs.disk (inodeAt fs.disk fs.cwd) (content fs.cwd) oldName phys bo before pre e post after ∧
        ((nameLen newName = nameLen oldName ∧ r = .ok 0 ∧
          Leaves (fun _ => False) (fun _ => False) fs fs' (Function.update content fs.cwd
            (before ++ (pre ++ { e with name := newName.take (nameLen newName) } :: post) :: after)) ∧
          inodeAt fs'.disk fs.cwd = inodeAt fs.disk fs.cwd) ∨
        (nameLen oldName < nameLen newName ∧
          (((∃ err, r = .error err) ∧ Leaves (fun _ => False) (fun _ => False) fs fs' content) ∨
            (r = .ok 0 ∧ ∃ blocks', Adds (inodeAt fs.disk fs.cwd) (newEntry e.ino newName direntFile)
                (deleted before pre e post after) blocks' ∧
              Leaves (fun _ => False) (fun _ => False) fs fs'
                (Function.update content fs.cwd blocks') ∧
              (inodeAt fs'.disk fs.cwd = inodeAt fs.disk fs.cwd ∨
                blocks'.length = (content fs.cwd).length + 1))))) := by
  rcases rename_cases hsb hcwd hrun with ⟨-, rfl, rfl⟩ | ⟨phys, bo, hsearch, hend⟩
  · exact .inl ⟨rfl, rfl⟩
  obtain ⟨before, pre, e, post, after, hhit⟩ := h.hit hcwd hdir hsearch
  have hlaid := h.laid _ hcwd hdir
  have hblock := hhit.block hlaid
  obtain ⟨hentry, -, -⟩ := hhit.entry hlaid
  have hlen := hhit.names.length
  refine .inr ⟨phys, bo, before, pre, e, post, after, hsearch, hhit, ?_⟩
  rcases hend with ⟨hle, rfl, hfs'⟩ | ⟨hlonger, a, d', hadd, hend⟩
  · have hequal : nameLen newName = nameLen oldName :=
      (heven phys bo hsearch).resolve_right fun ⟨hlt, _⟩ => by omega
    obtain ⟨hafter, hworks, hrec⟩ := h.rewrite hcwd hdir hhit.lies
      (hblock.rename (hequal.trans hlen.symm)) (span_rename (hequal.trans hlen.symm)) (by simp)
    rw [← hhit.phys, ← hhit.bo] at hafter hworks hrec
    subst hfs'
    exact .inl ⟨hequal, rfl, ⟨rfl, rfl, hworks.moves, hafter⟩, hrec⟩
  · have hadds := ((heven phys bo hsearch).resolve_left fun heq => by omega).2
    rw [hentry] at hadd
    refine .inr ⟨hlonger, ?_⟩
    rcases reenter_orderly h hcwd hdir hhit (by omega) hadds hadd with
      ⟨⟨err, rfl⟩, d'', hd'', hmoves, hback⟩ | ⟨rfl, blocks', hnew, hmoves, hafter, hsize⟩
    · rcases hend with ⟨hok, -⟩ | ⟨err', -, rfl, hfs'⟩
      · cases hok
      · rw [← hd''] at hfs'
        subst hfs'
        exact .inl ⟨⟨err', rfl⟩, rfl, rfl, hmoves, hback⟩
    · rcases hend with ⟨-, rfl, hfs'⟩ | ⟨err, hok, -⟩
      · subst hfs'
        exact .inr ⟨rfl, blocks', hnew, ⟨rfl, rfl, hmoves, hafter⟩, hsize⟩
      · cases hok

end Remove

end JexOs.JexFs
