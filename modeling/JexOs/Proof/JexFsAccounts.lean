import JexOs.Proof.JexFsMounted

/-!
# Blocks over whole runs

No call lets two inodes share a block or refer to a free one, whatever happens to the entries on the way: names
may be entered unevenly, written over and doubled.
-/

namespace JexOs.JexFs

open ByteMem Ownership

/-- The inodes that the call is about are allocated, and it does not remove the working directory. -/
def Op.Allocated (fs : Fs) : Op → Prop
  | write idx _ _ _ => Live fs.disk idx
  | remove name => ∀ n, jexfsFindEntry fs.sb fs.disk fs.cwd name = .ok (.ok n) → Live fs.disk n ∧ n ≠ fs.cwd
  | chdir idx => IsDirectory fs.disk idx
  | _ => True

structure Unshared (total : Nat) (fs : Fs) : Prop where
  sb : fs.sb = layout total
  cwd : IsDirectory fs.disk fs.cwd
  sound : Sound fs.disk (inodeAt fs.disk)

section Calls

variable {c : Prop} {touched : Nat → Prop} {total idx : Nat} {fs fs' : Fs} {d' : Mem}
    {name oldName newName : Name}
  {r : Ret Nat}

variable (h : Unshared total fs)

include h

theorem Unshared.settle (hsettles : Settles c touched fs.disk d') (hcwd : ¬touched fs.cwd) :
    Unshared total { fs with disk := d' } := by
  have hkeeps := hsettles.keeps _ h.cwd.1 hcwd
  refine ⟨h.sb, ⟨hkeeps.live, ?_⟩, hsettles.sound⟩
  rw [hkeeps.record]
  exact h.cwd.2

theorem Unshared.work (hworks : Works c idx fs.disk (inodeAt fs.disk idx) d' (inodeAt d' idx)) :
    Unshared total { fs with disk := d' } :=
  ⟨h.sb, ⟨(hworks.live _).mpr h.cwd.1, (hworks.kind h.cwd.1).trans h.cwd.2⟩, hworks.settles.sound⟩

theorem Unshared.ne_cwd {ino : Nat} (hfree : inodeBit fs.disk ino = false) : ino ≠ fs.cwd := by
  rintro rfl
  rw [h.cwd.1.2] at hfree
  cases hfree

theorem Unshared.edit {lb phys : Nat} (buf : Mem)
    (hphys : jexfsBmap fs.disk (inodeAt fs.disk fs.cwd) lb = phys)
    (hne : phys ≠ 0) : Unshared total { fs with disk := writeBlock fs.disk phys buf } := by
  subst hphys
  exact h.work (edit_works (c := True) buf h.sound h.cwd.1 hne)

theorem Unshared.create (hrun : jexfsCreate fs name = .ok (r, fs')) : Unshared total fs' := by
  rcases create_cases h.sb hrun with ⟨rfl, -⟩ | ⟨ino, a, d', hlt, hfree, -, -, -, hadd, hend⟩
  · exact h
  obtain ⟨hnew, hlive, hrec, -⟩ := newInode_settles (c := True) h.sound hlt hfree newFile_empty
  have hentered := h.settle hnew id
  have hworks := addDirent_works hentered.sound hentered.cwd.1 hadd
  have hdone := hentered.work hworks
  rcases hend with ⟨-, -, rfl⟩ | ⟨e, -, -, rfl⟩
  · exact hdone
  · have hne := h.ne_cwd hfree
    have hkeeps := hworks.settles.keeps ino hlive hne
    refine hdone.settle (freeInode_settles (c := True) hdone.sound hkeeps.live ?_) hne.symm
    rw [hkeeps.record, hrec]
    exact newFile_empty

theorem Unshared.mkdir (hrun : jexfsMkdir fs name = .ok (r, fs')) : Unshared total fs' := by
  rcases mkdir_cases h.sb hrun with ⟨rfl, -⟩ | ⟨ino, hlt, hfree, -, rfl⟩ |
    ⟨ino, blk, a, d', hlt, hfree, -, -, hblock, hadd, hend⟩
  · exact h
  · exact h.settle (unmark_settles (c := True) h.sound hlt hfree) id
  obtain ⟨hfresh, -, -⟩ := allocBlock_fresh hblock
  obtain ⟨hnew, hlive, hrec, -⟩ := newDir_settles (c := True) fs.cwd h.sound hlt hfree hfresh
  have hentered := h.settle hnew id
  have hworks := addDirent_works hentered.sound hentered.cwd.1 hadd
  have hdone := hentered.work hworks
  rcases hend with ⟨-, -, rfl⟩ | ⟨e, -, -, rfl⟩
  · exact hdone
  · have hne := h.ne_cwd hfree
    have hkeeps := hworks.settles.keeps ino hlive hne
    exact hdone.settle (freeNewDir_settles (c := True) hdone.sound hkeeps.live hfresh.low hfresh.high
      (hkeeps.record.trans hrec)).1 hne.symm

theorem Unshared.remove (htarget : (Op.remove name).Allocated fs) (hrun : jexfsRemove fs name = .ok (r, fs')) :
    Unshared total fs' := by
  by_cases hname : name = []
  · unfold jexfsRemove at hrun
    rw [if_pos hname] at hrun
    cases hrun
    exact h
  have hfound := fun phys bo
      (hsearch : searchDir fs.disk (inodeAt fs.disk fs.cwd) name = .ok (some (phys, bo))) =>
    htarget _ (remove_findEntry h.sb h.cwd.1 h.cwd.2 hrun hname hsearch)
  rcases remove_cases h.sb h.cwd.1 (fun phys bo hsearch => (hfound phys bo hsearch).1) hrun with
    ⟨rfl, -⟩ | ⟨phys, bo, hsearch, -, rfl⟩
  · exact h
  obtain ⟨hino, hself⟩ := hfound phys bo hsearch
  obtain ⟨hne, lb, hphys⟩ := (searchDir_found hsearch).mapped
  have hfreed := (freedDisk_settles (c := True) total h.sound hino).1
  have hkept := hfreed.keeps fs.cwd h.cwd.1 hself.symm
  refine (h.settle hfreed hself.symm).edit _ (?_ : jexfsBmap _ _ lb = phys) hne
  dsimp only
  rw [hkept.record, (hkept.dirAgree h.sound h.cwd.1).bmap, hphys]

theorem Unshared.rename (hrun : jexfsRename fs oldName newName = .ok (r, fs')) : Unshared total fs' := by
  rcases rename_cases h.sb h.cwd.1 hrun with ⟨-, -, rfl⟩ | ⟨phys, bo, hsearch, hend⟩
  · exact h
  obtain ⟨hne, lb, hphys⟩ := (searchDir_found hsearch).mapped
  rcases hend with ⟨-, -, rfl⟩ | ⟨-, a, d', hadd, hend⟩
  · exact h.edit _ hphys hne
  have hmid := h.edit (store16 (readBlock fs.disk phys) bo 0) hphys hne
  have hworks := addDirent_works hmid.sound hmid.cwd.1 hadd
  have hdone := hmid.work hworks
  rcases hend with ⟨-, -, rfl⟩ | ⟨e, -, -, rfl⟩
  · exact hdone
  · -- the entry is put back in a block that the directory still has
    have hedit := edit_works (c := True) (store16 (readBlock fs.disk phys) bo 0) h.sound h.cwd.1
      (hphys.trans_ne hne)
    have hkept := hedit.stays.bmap_kept (hphys.trans_ne hne)
    rw [hphys] at hkept
    refine hdone.edit _ (?_ : jexfsBmap _ _ lb = phys) hne
    exact (hworks.stays.bmap_kept (hkept.trans_ne hne)).trans hkept

theorem Unshared.step {op : Op} (hop : op.Allocated fs) (hrun : op.run fs = .ok (r, fs')) :
    Unshared total fs' := by
  cases op with
  | create name => exact h.create hrun
  | mkdir name => exact h.mkdir hrun
  | write idx buffer size offset =>
    simp only [Op.run, Loop.bind_eq_ok] at hrun
    obtain ⟨⟨r', d'⟩, hwrite, hret⟩ := hrun
    cases hret
    rw [h.sb] at hwrite
    exact h.work (write_works h.sound hop hwrite)
  | remove name => exact h.remove hop hrun
  | rename oldName newName => exact h.rename hrun
  | chdir idx =>
    cases hrun
    exact ⟨h.sb, hop, h.sound⟩

end Calls

end JexOs.JexFs
