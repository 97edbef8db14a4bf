import JexOs.EditorSave
import JexOs.Proof.JexFsCopy
import JexOs.Proof.JexFsRemove

/-!
# Saving a buffer and loading it again

`save_file_internal` never makes a file shorter, and so a load may go on behind the buffer. A file that is
not there is never made.
-/

namespace JexOs.Vfs

open JexFs Loop

section Descriptors

variable {vfs vfs' : State} {name : Name} {fd : Fin maxOpenFiles} {ino size : Nat}

def firstFree (vfs : State) : Option (Fin maxOpenFiles) :=
  (List.finRange maxOpenFiles).find? fun i => !(vfs.fileTable i).used

def opened (vfs : State) (fd : Fin maxOpenFiles) (ino : Nat) : State :=
  { vfs with
    fileTable := Function.update vfs.fileTable fd
      { used := true
        offset := 0
        inode := ino } }

theorem fsOpen_found (hmount : fsFindMount vfs name = none) (hfree : firstFree vfs = some fd)
    (hopen : jexfsOpen vfs.fs name = .ok (.ok ino)) :
    fsOpen vfs name = .ok ((fd.val : Int), opened vfs fd ino) := by
  unfold firstFree at hfree
  unfold fsOpen
  rw [hmount]
  rw [hfree, hopen]
  rfl

theorem fsOpen_cases {n : Int} (hmount : fsFindMount vfs name = none)
    (hrun : fsOpen vfs name = .ok (n, vfs')) :
    (∃ fd ino, firstFree vfs = some fd ∧ jexfsOpen vfs.fs name = .ok (.ok ino)) ∨ (n < -1 ∧ vfs' = vfs) := by
  unfold fsOpen at hrun
  rw [hmount] at hrun
  dsimp only at hrun
  split at hrun
  · cases hrun
    exact .inr ⟨by decide, rfl⟩
  · rename_i fd hfree
    simp only [bind_eq_ok] at hrun
    obtain ⟨r, hopen, hrun⟩ := hrun
    cases r with
    | ok ino => exact .inl ⟨fd, ino, hfree, hopen⟩
    | error e =>
      cases hrun
      refine .inr ⟨?_, rfl⟩
      cases e <;> decide

theorem fsOpen_missing {e : Errno} (hmount : fsFindMount vfs name = none)
    (hopen : jexfsOpen vfs.fs name = .ok (.error e)) : ∃ n, n < -1 ∧ fsOpen vfs name = .ok (n, vfs) := by
  unfold fsOpen
  rw [hmount]
  dsimp only
  split
  · exact ⟨_, by decide, rfl⟩
  · rw [hopen]
    refine ⟨_, ?_, rfl⟩
    cases e <;> decide

theorem descriptor_opened (vfs : State) (fd : Fin maxOpenFiles) (ino : Nat) :
    descriptor (opened vfs fd ino) fd.val = some fd := by
  unfold descriptor opened
  simp

theorem descriptor_negative {n : Int} (hn : n < 0) : descriptor vfs n = none := by
  unfold descriptor
  rw [dif_neg (by omega)]

theorem not_virtual (fd : Fin maxOpenFiles) : ¬virtualFdStart ≤ (fd.val : Int) := by
  have hfd : fd.val < 32 := fd.isLt
  unfold virtualFdStart
  omega

theorem fsRead_opened (vfs : State) (fd : Fin maxOpenFiles) (ino size : Nat) :
    fsRead (opened vfs fd ino) fd.val size = (do
      let bytes ← jexfsRead vfs.fs.sb vfs.fs.disk ino size 0
      return (((bytes.length : Int), bytes), advance (opened vfs fd ino) fd bytes.length)) := by
  have hdesc := descriptor_opened vfs fd ino
  unfold fsRead
  rw [if_neg (not_virtual fd), hdesc]
  simp [opened]

theorem fsWrite_opened (vfs : State) (fd : Fin maxOpenFiles) (ino size : Nat) (buffer : ByteMem.Mem) :
    fsWrite (opened vfs fd ino) fd.val buffer size = (do
      let (r, disk) ← jexfsWrite vfs.fs.sb vfs.fs.disk ino buffer size 0
      return (retCode r, advance { opened vfs fd ino with fs := { vfs.fs with disk := disk } } fd
        (retCode r))) := by
  have hdesc := descriptor_opened vfs fd ino
  unfold fsWrite
  rw [if_neg (not_virtual fd), hdesc]
  simp [opened]

theorem fsWrite_negative {n : Int} (hn : n < 0) (buffer : ByteMem.Mem) (size : Nat) :
    fsWrite vfs n buffer size = .ok (-ebadf, vfs) := by
  unfold fsWrite
  rw [if_neg (by unfold virtualFdStart; omega), descriptor_negative hn]
  rfl

@[simp] theorem advance_mounts (vfs : State) (i : Fin maxOpenFiles) (n : Int) :
    (advance vfs i n).mounts = vfs.mounts := by
  unfold advance
  split <;> rfl

@[simp] theorem advance_fs (vfs : State) (i : Fin maxOpenFiles) (n : Int) : (advance vfs i n).fs = vfs.fs := by
  unfold advance
  split <;> rfl

@[simp] theorem fsClose_mounts (vfs : State) (n : Int) : (fsClose vfs n).mounts = vfs.mounts := by
  unfold fsClose
  split <;> rfl

@[simp] theorem fsClose_fs (vfs : State) (n : Int) : (fsClose vfs n).fs = vfs.fs := by
  unfold fsClose
  split <;> rfl

theorem firstFree_close (vfs : State) (fd : Fin maxOpenFiles) :
    ∃ i, firstFree (fsClose vfs fd.val) = some i := by
  refine Option.isSome_iff_exists.mp (List.find?_isSome.mpr ⟨fd, List.mem_finRange fd, ?_⟩)
  unfold fsClose
  simp

end Descriptors

end JexOs.Vfs

namespace JexOs.Editor

open ByteMem JexFs Vfs Ownership Loop

/-- A file or a name that is to be saved to, on a disk whose blocks each have one owner, and a buffer
with room for a terminator. -/
structure Saves (total : Nat) (vfs : Vfs.State) (s : EditorState) : Prop where
  sb : vfs.fs.sb = layout total
  owned : Owned (Refs vfs.fs.disk (inodeAt vfs.fs.disk)) (Used vfs.fs.disk)
  named : s.filename ≠ []
  unmounted : fsFindMount vfs s.filename = none
  directory : Live vfs.fs.disk (searched vfs.fs s.filename)
  file : ∀ ino, jexfsOpen vfs.fs s.filename = .ok (.ok ino) →
    Live vfs.fs.disk ino ∧ (inodeAt vfs.fs.disk ino).isDir = false
  length : 0 ≤ s.length ∧ s.length < maxFileSize

def Loaded (s e : EditorState) : Prop :=
  e.length = s.length ∧ ∀ k, 0 ≤ k → k < s.length → e.buffer k = s.buffer k

def Accepts (fs : Fs) (ino : Nat) (s : EditorState) : Prop :=
  ∃ n d', jexfsWrite fs.sb fs.disk ino (fun k => s.buffer k) s.length.toNat 0 = .ok (.ok n, d')

/-- The file is not there, and can be created and written. -/
def Creatable (vfs : Vfs.State) (s : EditorState) : Prop :=
  jexfsOpen vfs.fs s.filename = .ok (.error .enoent) ∧
    ∃ ino fs', jexfsCreate vfs.fs s.filename = .ok (.ok ino, fs') ∧ Accepts fs' ino s

/-- What was reported as saved is loaded again, and what can be created is. -/
structure SaveLaw (vfs : Vfs.State) (s : EditorState) : Prop where
  loads : ∀ s' vfs', saveFile vfs s = .ok (0, s', vfs') →
    ∀ e, ∃ e' vfs'', startOn vfs' s.filename e = .ok (e', vfs'') ∧ Loaded s e'
  creates : Creatable vfs s → ∃ s' vfs' ino, saveFile vfs s = .ok (0, s', vfs') ∧
    jexfsOpen vfs'.fs s.filename = .ok (.ok ino)

/-- A file of the inode `v` has nothing that a load would find behind `length` bytes. -/
def Ends (d : Mem) (v : Inode) (length : Nat) : Prop :=
  v.size.toNat ≤ length ∨ (length : Int) = maxFileSize - 1 ∨
    (length % 1024 = 0 ∧ jexfsBmap d v (length / 1024) = 0)

section Save

variable {total ino : Nat} {vfs vfs' : Vfs.State} {s s' : EditorState} {fd : Fin Vfs.maxOpenFiles}

theorem asUnsigned_eq {n : Int} (hn : 0 ≤ n) (hlt : n < maxFileSize) : asUnsigned n = n.toNat := by
  unfold maxFileSize at hlt
  unfold asUnsigned
  omega

variable (h : Saves total vfs s)

include h

theorem saveFile_failed {n : Int} (hn : n < -1) (hrun : Vfs.fsOpen vfs s.filename = .ok (n, vfs)) :
    ∃ s' vfs', saveFile vfs s = .ok (-1, s', vfs') := by
  have hlength := h.length.1
  unfold saveFile openForSaving
  rw [if_neg h.named, hrun]
  simp only [bind, Except.bind, pure, Except.pure]
  rw [if_pos (by omega)]
  dsimp only
  rw [fsWrite_negative (by omega)]
  dsimp only
  rw [if_neg (by unfold Vfs.ebadf; omega)]
  exact ⟨_, _, rfl⟩

structure Saved (vfs : Vfs.State) (s : EditorState) (ino : Nat) (vfs' : Vfs.State) (d' : Mem) :
    Prop where
  opens : jexfsOpen vfs.fs s.filename = .ok (.ok ino)
  written : jexfsWrite vfs.fs.sb vfs.fs.disk ino (fun k => s.buffer k) s.length.toNat 0 =
    .ok (.ok s.length.toNat, d')
  mounts : vfs'.mounts = vfs.mounts
  fs : vfs'.fs = { vfs.fs with disk := d' }
  free : ∃ i, firstFree vfs' = some i

theorem saveFile_found (hfree : firstFree vfs = some fd)
    (hopen : jexfsOpen vfs.fs s.filename = .ok (.ok ino)) :
    saveFile vfs s = (do
      let (r, disk) ← jexfsWrite vfs.fs.sb vfs.fs.disk ino (fun k => s.buffer k) s.length.toNat 0
      let vfs' := Vfs.fsClose (advance { opened vfs fd ino with
        fs := { vfs.fs with disk := disk } } fd (retCode r)) fd.val
      if retCode r = s.length then
        return (0, { s with
          saveStatus := .ok
          dirty := false }, vfs')
      else return (-1, { s with saveStatus := .fail }, vfs')) := by
  have hlength := h.length
  have hfd : (fd.val : Int) ≠ -1 := by omega
  unfold saveFile openForSaving
  rw [if_neg h.named, fsOpen_found h.unmounted hfree hopen]
  simp only [bind, Except.bind, pure, Except.pure]
  rw [if_pos hfd]
  dsimp only
  rw [fsWrite_opened, asUnsigned_eq hlength.1 hlength.2]
  cases jexfsWrite vfs.fs.sb vfs.fs.disk ino (fun k => s.buffer k) s.length.toNat 0 with
  | error e => rfl
  | ok p => rfl

theorem saveFile_saved (hrun : saveFile vfs s = .ok (0, s', vfs')) :
    ∃ fd ino d', firstFree vfs = some fd ∧ Saved vfs s ino vfs' d' := by
  have hlength := h.length
  cases hopens : Vfs.fsOpen vfs s.filename with
  | error e =>
    unfold saveFile openForSaving at hrun
    rw [if_neg h.named, hopens] at hrun
    cases hrun
  | ok p =>
    rcases fsOpen_cases h.unmounted hopens with ⟨fd, ino, hfree, hopen⟩ | ⟨hn, rfl⟩
    · rw [saveFile_found h hfree hopen] at hrun
      simp only [bind_eq_ok] at hrun
      obtain ⟨⟨r, d'⟩, hwrite, hrun⟩ := hrun
      split at hrun
      · rename_i hret
        cases hrun
        have hr : r = .ok s.length.toNat := by
          cases r with
          | ok n =>
            have hn : (n : Int) = s.length := hret
            rw [show n = s.length.toNat by omega]
          | error e =>
            cases e <;> simp only [retCode, errnoCode] at hret <;> omega
        subst hr
        exact ⟨fd, ino, d', hfree,
          { opens := hopen
            written := hwrite
            mounts := by simp [opened]
            fs := by simp
            free := firstFree_close _ fd }⟩
      · cases hrun
    · obtain ⟨s₁, vfs₁, hfailed⟩ := saveFile_failed h hn hopens
      rw [hfailed] at hrun
      cases hrun

theorem saveFile_accepted {d' : Mem} (hfree : firstFree vfs = some fd)
    (hopen : jexfsOpen vfs.fs s.filename = .ok (.ok ino))
    (hwrite : jexfsWrite vfs.fs.sb vfs.fs.disk ino (fun k => s.buffer k) s.length.toNat 0 =
      .ok (.ok s.length.toNat, d')) : ∃ s' vfs', saveFile vfs s = .ok (0, s', vfs') := by
  have hlength := h.length.1
  rw [saveFile_found h hfree hopen, hwrite]
  simp only [bind, Except.bind, pure, Except.pure]
  have hret : retCode (.ok s.length.toNat) = s.length := Int.toNat_of_nonneg hlength
  rw [if_pos hret]
  exact ⟨_, _, rfl⟩

omit h in
theorem startOn_found (filename : Name) (e : EditorState) (hmount : fsFindMount vfs filename = none)
    (hfree : firstFree vfs = some fd) (hopen : jexfsOpen vfs.fs filename = .ok (.ok ino)) {bytes : List UInt8}
    (hread : jexfsRead vfs.fs.sb vfs.fs.disk ino 32767 0 = .ok bytes) :
    ∃ e' vfs', startOn vfs filename e = .ok (e', vfs') ∧ e'.length = bytes.length ∧
      ∀ k, 0 ≤ k → k < (bytes.length : Int) → e'.buffer k = bytes.getD k.toNat 0 := by
  have hfd : (fd.val : Int) ≠ -1 := by omega
  have hsize : asUnsigned (maxFileSize - 1) = 32767 := by decide
  unfold startOn loadBuffer
  rw [fsOpen_found hmount hfree hopen]
  simp only [bind, Except.bind, pure, Except.pure]
  rw [if_pos hfd, hsize, fsRead_opened, hread]
  refine ⟨_, _, rfl, rfl, fun k hk hk' => ?_⟩
  dsimp only
  unfold setByte copyTo bytesAt
  rw [if_neg (by omega), if_pos (by omega)]
  congr 2
  omega

omit h in
theorem load_written {length n : Nat} {buffer d d' : Mem} {idx : Nat} (hlength : length < 32768)
    (hwritten : Written total idx buffer length 0 d d') (hn : n ≤ min 32767 ((inodeAt d' idx).size.toNat - 0))
    (hmapped : ∀ k, k < n → jexfsBmap d' (inodeAt d' idx) ((0 + k) / 1024) ≠ 0)
    (hstop : n = min 32767 ((inodeAt d' idx).size.toNat - 0) ∨
      jexfsBmap d' (inodeAt d' idx) ((0 + n) / 1024) = 0) :
    length ≤ n ∧ (n = length ↔ Ends d (inodeAt d idx) length) := by
  have hsized := hwritten.sized
  simp only [Nat.zero_add, Nat.sub_zero] at *
  have hle : length ≤ n := by
    rcases hstop with hall | hhole
    · omega
    · refine Nat.le_of_not_lt fun hlt => ?_
      exact (hwritten.holds n (Nat.zero_le n) (by omega)).1 hhole
  refine ⟨hle, fun heq => ?_, fun hends => ?_⟩
  · subst heq
    by_cases hshort : (inodeAt d idx).size.toNat ≤ n
    · exact .inl hshort
    by_cases hfull : n = 32767
    · exact .inr (.inl (by unfold maxFileSize; omega))
    have hhole := hstop.resolve_left (by omega)
    -- a hole starts at a block's first byte, and the write did not make it
    have haligned : n % 1024 = 0 := by
      by_contra hne
      have hbefore := hmapped (n - 1) (by omega)
      rw [show (n - 1) / 1024 = n / 1024 by omega] at hbefore
      exact hbefore hhole
    rw [hwritten.ahead (n / 1024) (by omega)] at hhole
    exact .inr (.inr ⟨haligned, hhole⟩)
  · refine Nat.le_antisymm (Nat.le_of_not_lt fun hlt => ?_) hle
    unfold Ends maxFileSize at hends
    rcases hends with hshort | hfull | ⟨haligned, hhole⟩
    · omega
    · omega
    · rw [← hwritten.ahead (length / 1024) (by omega)] at hhole
      exact hmapped length hlt hhole

omit h in
theorem Saved.startOn {d' : Mem} (hsaved : Saved vfs s ino vfs' d') (h : Saves total vfs s) (e : EditorState) :
    ∃ e' vfs'', startOn vfs' s.filename e = .ok (e', vfs'') ∧
      (Loaded s e' ↔ Ends vfs.fs.disk (inodeAt vfs.fs.disk ino) s.length.toNat) := by
  obtain ⟨hlive, hfile⟩ := h.file ino hsaved.opens
  obtain ⟨hnonneg, hbound⟩ := h.length
  unfold maxFileSize at hbound
  have hwrite := hsaved.written
  rw [h.sb] at hwrite
  obtain ⟨-, hwritten⟩ := write_written h.owned hlive (by omega) hwrite
  have hfits : Fits ino := by
    unfold jexfsWrite at hwrite
    simp only [bind_eq_ok] at hwrite
    obtain ⟨v, hread, -⟩ := hwrite
    rcases readInode_cases hread with ⟨hge, -⟩ | ⟨-, hfits, -⟩
    · exact absurd hlive.1 (by omega)
    · exact hfits
  obtain ⟨fd, hfree⟩ := hsaved.free
  have hopen : jexfsOpen vfs'.fs s.filename = .ok (.ok ino) := by
    rw [hsaved.fs]
    exact open_written h.sb hfile hwritten h.directory hsaved.opens
  have hmount : fsFindMount vfs' s.filename = none := by
    have hunmounted := h.unmounted
    unfold fsFindMount at hunmounted ⊢
    rwa [hsaved.mounts]
  obtain ⟨n, hn, hread, hmapped, hstop⟩ := read_run
    total hlive.1 hfits (Eq.refl (inodeAt d' ino)) (show 0 + 32767 < 2 ^ 32 by decide)
  obtain ⟨hle, hiff⟩ := load_written (by omega) hwritten hn hmapped hstop
  have hload : jexfsRead vfs'.fs.sb vfs'.fs.disk ino 32767 0 =
      .ok ((List.range n).map fun k => fileByte d' (inodeAt d' ino) (0 + k)) := by
    rw [hsaved.fs, h.sb]
    exact hread
  obtain ⟨e', vfs'', hstart, hlength, hbytes⟩ := startOn_found s.filename e hmount hfree hopen hload
  rw [List.length_map, List.length_range] at hlength hbytes
  refine ⟨e', vfs'', hstart, ?_⟩
  rw [← hiff]
  refine ⟨fun hloaded => ?_, fun heq => ⟨by omega, fun k hk hk' => ?_⟩⟩
  · have := hloaded.1
    omega
  · have hheld := (hwritten.holds k.toNat (Nat.zero_le _) (by omega)).2
    rw [hbytes k hk (by omega), List.getD_eq_getElem?_getD, List.getElem?_map, List.getElem?_range (by omega)]
    simp only [Option.map_some, Option.getD_some, Nat.zero_add]
    unfold fileByte
    rw [hheld, Nat.sub_zero, Int.toNat_of_nonneg hk]

/-- The law holds exactly where no file has to be made and the text reaches the end of the file. -/
theorem saveLaw_iff : SaveLaw vfs s ↔ ¬Creatable vfs s ∧ ∀ ino, jexfsOpen vfs.fs s.filename = .ok (.ok ino) →
      firstFree vfs ≠ none → Accepts vfs.fs ino s →
      Ends vfs.fs.disk (inodeAt vfs.fs.disk ino) s.length.toNat := by
  have hlength := h.length
  constructor
  · intro hlaw
    refine ⟨fun hcreatable => ?_, fun ino hopen hfree ⟨n, d', hwrite⟩ => ?_⟩
    · obtain ⟨s', vfs', ino, hrun, -⟩ := hlaw.creates hcreatable
      obtain ⟨n, hn, hopens⟩ := fsOpen_missing h.unmounted hcreatable.1
      obtain ⟨s₁, vfs₁, hfailed⟩ := saveFile_failed h hn hopens
      rw [hfailed] at hrun
      cases hrun
    · obtain ⟨fd, hfd⟩ := Option.ne_none_iff_exists'.mp hfree
      have hlive := (h.file ino hopen).1
      have hwritten := hwrite
      rw [h.sb] at hwritten
      unfold maxFileSize at hlength
      obtain ⟨rfl, -⟩ := write_written h.owned hlive (by omega) hwritten
      obtain ⟨s', vfs', hrun⟩ := saveFile_accepted h hfd hopen hwrite
      obtain ⟨fd', ino', d'', -, hsaved⟩ := saveFile_saved h hrun
      have hino := hsaved.opens
      rw [hopen] at hino
      cases hino
      obtain ⟨e', vfs'', hstart, hiff⟩ := hsaved.startOn h s
      obtain ⟨e₁, vfs₁, hstart', hloaded⟩ := hlaw.loads s' vfs' hrun s
      rw [hstart] at hstart'
      cases hstart'
      exact hiff.mp hloaded
  · rintro ⟨hmissing, hends⟩
    refine ⟨fun s' vfs' hrun e => ?_, fun hcreatable => absurd hcreatable hmissing⟩
    obtain ⟨fd, ino, d', hfree, hsaved⟩ := saveFile_saved h hrun
    obtain ⟨e', vfs'', hstart, hiff⟩ := hsaved.startOn h e
    refine ⟨e', vfs'', hstart, hiff.mpr (hends ino hsaved.opens ?_ ⟨_, _, hsaved.written⟩)⟩
    rw [hfree]
    exact Option.some_ne_none fd

end Save

def nothingOpen : Vfs.State :=
  { mounts := []
    fileTable := fun _ =>
      { used := false
        offset := 0
        inode := 0 }
    fs :=
      { sb := layout 4096
        disk := fileBehindDots
        cwd := 1 } }

def oneByte (filename : Name) : EditorState :=
  { fresh fun _ => 65 with
    length := 1
    filename := filename }

theorem nothingOpen_saves {filename : Name} (hnamed : filename ≠ []) (hlocal : filename.head? ≠ some slash)
    (hfile : ∀ ino, jexfsOpen nothingOpen.fs filename = .ok (.ok ino) → ino = 2) :
    Saves 4096 nothingOpen (oneByte filename) := by
  obtain ⟨hsound, hlive⟩ := fileBehindDots_sound
  exact
    { sb := rfl
      owned := hsound.owned
      named := hnamed
      unmounted := rfl
      directory := by
        have hsearched : searched nothingOpen.fs (oneByte filename).filename = 1 := if_neg hlocal
        rw [hsearched]
        exact ⟨by decide, by decide⟩
      file := by
        intro ino hopen
        rw [hfile ino hopen]
        exact ⟨hlive, by decide⟩
      length := ⟨Int.one_nonneg, show (1 : Int) < maxFileSize by decide⟩ }

theorem saveLaw_iff_dots :
    ¬Creatable nothingOpen (oneByte [46, 46]) ∧ SaveLaw nothingOpen (oneByte [46, 46]) := by
  have hopen : jexfsOpen nothingOpen.fs [46, 46] = .ok (.ok 2) := by decide
  have hsaves := nothingOpen_saves (show ([46, 46] : Name) ≠ [] by decide) (by decide)
    fun ino hino => by
      rw [hopen] at hino
      cases hino
      rfl
  have hmissing : ¬Creatable nothingOpen (oneByte [46, 46]) := by
    intro hcreatable
    have hnone := hcreatable.1
    change jexfsOpen nothingOpen.fs [46, 46] = _ at hnone
    cases hnone
  refine ⟨hmissing, (saveLaw_iff hsaves).mpr ⟨hmissing, fun ino hino _ _ => ?_⟩⟩
  change jexfsOpen nothingOpen.fs [46, 46] = _ at hino
  rw [hopen] at hino
  cases hino
  exact .inl (by decide)

/-- A name that is not there: it can be created, and the editor does not. -/
theorem not_saveLaw_missing : Saves 4096 nothingOpen (oneByte [97]) ∧ ¬SaveLaw nothingOpen (oneByte [97]) := by
  have hopen : jexfsOpen nothingOpen.fs [97] = .ok (.error .enoent) := by decide
  have hsaves := nothingOpen_saves (show ([97] : Name) ≠ [] by decide) (by decide)
    fun ino hino => by
      cases hino
  refine ⟨hsaves, fun hlaw => ?_⟩
  have hcreate : (do
      let made ← jexfsCreate nothingOpen.fs [97]
      let wrote ← jexfsWrite made.2.sb made.2.disk 3 (fun k => (oneByte [97]).buffer k) 1 0
      return (made.1, wrote.1)) = (.ok (.ok 3, .ok 1) : Except Fault _) := by decide
  simp only [bind_eq_ok] at hcreate
  obtain ⟨⟨r, fs'⟩, hcreated, ⟨n, d'⟩, hwrite, hret⟩ := hcreate
  cases hret
  obtain ⟨s', vfs', ino, hrun, -⟩ := hlaw.creates ⟨hopen, 3, fs', hcreated, 1, d', hwrite⟩
  obtain ⟨m, hm, hopens⟩ := fsOpen_missing hsaves.unmounted hopen
  obtain ⟨s₁, vfs₁, hfailed⟩ := saveFile_failed hsaves hm hopens
  cases hrun

end JexOs.Editor
