import JexOs.Proof.JexFsOrder

/-!
# Runs of calls

A run is a sequence of calls, each of which returns.
-/

namespace JexOs.JexFs

open ByteMem Ownership Loop

/-- The calls on the file system, and a change of `cwd_inode`. -/
inductive Op where
  | create (name : Name)
  | mkdir (name : Name)
  | write (idx : Nat) (buffer : Mem) (size offset : Nat)
  | remove (name : Name)
  | rename (oldName newName : Name)
  | chdir (idx : Nat)

def Op.run (fs : Fs) : Op → Except Fault (Ret Nat × Fs)
  | create name => jexfsCreate fs name
  | mkdir name => jexfsMkdir fs name
  | write idx buffer size offset => do
      let (r, d) ← jexfsWrite fs.sb fs.disk idx buffer size offset
      return (r, { fs with disk := d })
  | remove name => jexfsRemove fs name
  | rename oldName newName => jexfsRename fs oldName newName
  | chdir idx => .ok (.ok 0, { fs with cwd := idx })

def Op.cwd (fs : Fs) : Op → Nat
  | chdir idx => idx
  | _ => fs.cwd

def Runs (condition : Fs → Op → Prop) : Fs → Fs → Prop :=
  Relation.ReflTransGen fun fs fs' => ∃ op r, condition fs op ∧ op.run fs = .ok (r, fs')

def IsDirectory (d : Mem) (idx : Nat) : Prop := Live d idx ∧ (inodeAt d idx).isDir = true

/-- The call enters names evenly, writes to files only, and keeps the root and the working directory. -/
def Op.Even (total : Nat) (fs : Fs) : Op → Prop
  | create name => (∃ n, jexfsOpen fs name = .ok (.ok n)) ∨
      (nameLen name ≠ 0 ∧ AddsEvenly total fs.disk fs.cwd (nameLen name) 0)
  | mkdir name => name = [] ∨
      (nameLen name ≠ 0 ∧ AddsEvenly total fs.disk fs.cwd (nameLen name) 1)
  | write idx _ _ _ => Live fs.disk idx ∧ (inodeAt fs.disk idx).isDir = false
  | remove name => ∀ n, jexfsFindEntry fs.sb fs.disk fs.cwd name = .ok (.ok n) →
      Live fs.disk n ∧ n ≠ 1 ∧ n ≠ fs.cwd
  | rename oldName newName => RenamesEvenly total fs.disk fs.cwd oldName newName
  | chdir idx => IsDirectory fs.disk idx

/-- What a call does to the entries of the working directory. The inodes in `gone` are given back and
those in `new` taken. -/
inductive Does (fs : Fs) (content : Content) :
    Op → Ret Nat → Content → (Nat → Prop) → (Nat → Prop) → Prop
  | failed (op : Op) (e : Errno) :
      Does fs content op (.error e) content (fun _ => False) (fun _ => False)
  | opened (name : Name) (n : Nat) :
      Does fs content (.create name) (.ok n) content (fun _ => False) (fun _ => False)
  | wrote (idx : Nat) (buffer : Mem) (size offset : Nat) (r : Ret Nat) :
      Does fs content (.write idx buffer size offset) r content (fun _ => False) (fun _ => False)
  | turned (idx : Nat) :
      Does fs content (.chdir idx) (.ok 0) content (fun _ => False) (fun _ => False)
  | created (name : Name) (ino : Nat) (blocks' : List (List Entry)) :
      (∃ e, jexfsOpen fs name = .ok (.error e)) →
      Entered fs name direntFile (content fs.cwd) ino blocks' →
      Does fs content (.create name) (.ok ino) (Function.update content fs.cwd blocks')
        (fun _ => False) (· = ino)
  | made (name : Name) (ino : Nat) (blocks' : List (List Entry)) :
      Entered fs name direntDir (content fs.cwd) ino blocks' →
      Does fs content (.mkdir name) (.ok 0)
        (Function.update (Function.update content ino [dots ino fs.cwd]) fs.cwd blocks')
        (fun _ => False) (· = ino)
  | removed (name : Name) (phys bo : Nat) (before : List (List Entry)) (pre : List Entry) (e : Entry)
      (post : List Entry) (after : List (List Entry)) :
      Hit fs.disk (inodeAt fs.disk fs.cwd) (content fs.cwd) name phys bo before pre e post after →
      Live fs.disk e.ino → e.ino ≠ 1 → e.ino ≠ fs.cwd →
      Does fs content (.remove name) (.ok 0)
        (Function.update content fs.cwd (deleted before pre e post after)) (· = e.ino)
        (fun _ => False)
  | relabelled (oldName newName : Name) (phys bo : Nat) (before : List (List Entry))
      (pre : List Entry) (e : Entry) (post : List Entry) (after : List (List Entry)) :
      Hit fs.disk (inodeAt fs.disk fs.cwd) (content fs.cwd) oldName phys bo before pre e post after →
      nameLen newName = nameLen oldName →
      Does fs content (.rename oldName newName) (.ok 0)
        (Function.update content fs.cwd
          (before ++ (pre ++ { e with name := newName.take (nameLen newName) } :: post) :: after))
        (fun _ => False) (fun _ => False)
  | reentered (oldName newName : Name) (phys bo : Nat) (before : List (List Entry))
      (pre : List Entry) (e : Entry) (post : List Entry) (after blocks' : List (List Entry)) :
      Hit fs.disk (inodeAt fs.disk fs.cwd) (content fs.cwd) oldName phys bo before pre e post after →
      nameLen oldName < nameLen newName →
      Adds (inodeAt fs.disk fs.cwd) (newEntry e.ino newName direntFile)
        (deleted before pre e post after) blocks' →
      Does fs content (.rename oldName newName) (.ok 0) (Function.update content fs.cwd blocks')
        (fun _ => False) (fun _ => False)

/-- A file system with the superblock `mkjexfs` writes, whose disk is in order, in one of its
directories. -/
structure Ordered (total : Nat) (fs : Fs) (content : Content) : Prop where
  sb : fs.sb = layout total
  cwd : IsDirectory fs.disk fs.cwd
  orderly : Orderly fs.disk content

section Step

variable {total : Nat} {fs fs' : Fs} {content content' : Content} {op : Op} {r : Ret Nat}
  {gone new : Nat → Prop}

theorem Leaves.ordered (h : Leaves gone new fs fs' content') (hordered : Ordered total fs content)
    (hcwd : ¬gone fs.cwd) : Ordered total fs' content' := by
  obtain ⟨hlive, hdir⟩ := hordered.cwd
  refine ⟨h.sb.trans hordered.sb, ?_, h.orderly⟩
  rw [h.cwd]
  exact ⟨(h.moves.live _).mpr (.inl ⟨hlive, hcwd⟩), (h.moves.kind _ hlive hcwd).trans hdir⟩

theorem Ordered.step (h : Ordered total fs content) (heven : op.Even total fs)
    (hrun : op.run fs = .ok (r, fs')) : ∃ content' gone new,
      Does fs content op r content' gone new ∧ Moves gone new fs.disk fs'.disk ∧
        fs'.cwd = op.cwd fs ∧ Ordered total fs' content' := by
  obtain ⟨hcwd, hdir⟩ := h.cwd
  cases op with
  | create name =>
    rcases create_orderly h.sb hcwd hdir h.orderly heven hrun with
      ⟨hleaves, hfails⟩ | ⟨ino, blocks', rfl, hopen, hentered, hleaves⟩
    · refine ⟨content, _, _, ?_, hleaves.moves, hleaves.cwd, hleaves.ordered h id⟩
      cases r with
      | error e => exact .failed _ e
      | ok n => exact .opened name n
    · exact ⟨_, _, _, .created name ino blocks' hopen hentered, hleaves.moves, hleaves.cwd,
        hleaves.ordered h id⟩
  | mkdir name =>
    by_cases hempty : name = []
    · simp only [Op.run, jexfsMkdir, if_pos hempty] at hrun
      cases hrun
      exact ⟨content, _, _, .failed _ _, Moves.refl, rfl, h⟩
    · obtain ⟨hname, heven⟩ := heven.resolve_left hempty
      rcases mkdir_orderly h.sb hcwd hdir h.orderly hname heven hrun with
        ⟨hleaves, e, rfl⟩ | ⟨ino, blocks', rfl, hentered, hleaves⟩
      · exact ⟨content, _, _, .failed _ e, hleaves.moves, hleaves.cwd, hleaves.ordered h id⟩
      · exact ⟨_, _, _, .made name ino blocks' hentered, hleaves.moves, hleaves.cwd, hleaves.ordered h id⟩
  | write idx buffer size offset =>
    simp only [Op.run, bind_eq_ok] at hrun
    obtain ⟨⟨r', d'⟩, hwrite, hret⟩ := hrun
    cases hret
    rw [h.sb] at hwrite
    have hleaves := write_orderly h.orderly heven.1 heven.2 hwrite
    exact ⟨content, _, _, .wrote idx buffer size offset r', hleaves.moves, hleaves.cwd, hleaves.ordered h id⟩
  | remove name =>
    rcases remove_orderly h.sb hcwd hdir h.orderly heven hrun with
      ⟨rfl, e, rfl⟩ | ⟨phys, bo, before, pre, e, post, after, hhit, rfl, hino, hroot, hself, hleaves, -⟩
    · exact ⟨content, _, _, .failed _ e, Moves.refl, rfl, h⟩
    · exact ⟨_, _, _, .removed name phys bo before pre e post after hhit hino hroot hself,
        hleaves.moves, hleaves.cwd, hleaves.ordered h (Ne.symm hself)⟩
  | rename oldName newName =>
    rcases rename_orderly h.sb hcwd hdir h.orderly heven hrun with
      ⟨rfl, rfl⟩ | ⟨phys, bo, before, pre, e, post, after, -, hhit, hend⟩
    · exact ⟨content, _, _, .failed _ _, Moves.refl, rfl, h⟩
    rcases hend with ⟨hequal, rfl, hleaves, -⟩ | ⟨hlonger,
      ⟨⟨err, rfl⟩, hleaves⟩ | ⟨rfl, blocks', hadds, hleaves, -⟩⟩
    · exact ⟨_, _, _, .relabelled oldName newName phys bo before pre e post after hhit hequal,
        hleaves.moves, hleaves.cwd, hleaves.ordered h id⟩
    · exact ⟨content, _, _, .failed _ err, hleaves.moves, hleaves.cwd, hleaves.ordered h id⟩
    · exact ⟨_, _, _, .reentered oldName newName phys bo before pre e post after blocks' hhit hlonger
        hadds, hleaves.moves, hleaves.cwd, hleaves.ordered h id⟩
  | chdir idx =>
    cases hrun
    exact ⟨content, _, _, .turned idx, Moves.refl, rfl, h.sb, heven, h.orderly⟩

theorem Runs.invariant {condition : Fs → Op → Prop} {P : Fs → Content → Prop}
    (hordered : ∀ fs content, P fs content → Ordered total fs content)
    (hcondition : ∀ fs content op, P fs content → condition fs op → op.Even total fs)
    (hstep : ∀ fs content op r fs' content' gone new, P fs content → condition fs op →
      op.run fs = .ok (r, fs') → Does fs content op r content' gone new →
      Moves gone new fs.disk fs'.disk → fs'.cwd = op.cwd fs → Ordered total fs' content' → P fs' content')
    (hrun : Runs condition fs fs') (hinit : ∃ content, P fs content) : ∃ content, P fs' content := by
  induction hrun with
  | refl => exact hinit
  | tail _ hlast ih =>
    obtain ⟨content, hP⟩ := ih
    obtain ⟨op, r, hcond, hop⟩ := hlast
    obtain ⟨content', gone, new, hdoes, hmoves, hcwd, hnext⟩ :=
      (hordered _ content hP).step (hcondition _ content op hP hcond) hop
    exact ⟨content', hstep _ content op r _ content' gone new hP hcond hop hdoes hmoves hcwd hnext⟩

end Step

end JexOs.JexFs
