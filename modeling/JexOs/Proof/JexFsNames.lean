import JexOs.Proof.JexFsMounted

/-!
# Names that occur once

Where no call enters a name that a live entry of the working directory has, every name occurs once in every
directory.
-/

namespace JexOs.JexFs

open ByteMem Loop List Function

section LookUp

variable {total idx n : Nat} {fs : Fs} {content : Content} {name : Name} {blocks : List (List Entry)}
  {e : Entry}

theorem lookup_live (h : lookup blocks name = some e) : e ∈ live blocks ∧ e.Names name := by
  have hnames : e.Names name := of_decide_eq_true (find?_some (p := fun e : Entry => decide (e.Names name)) h)
  exact ⟨mem_live.mpr ⟨mem_of_visible (mem_of_find?_eq_some h), hnames.1⟩, hnames⟩

section

variable (h : Ordered total fs content)

include h

variable (hdir : IsDirectory fs.disk idx)

include hdir

theorem Ordered.dirEntries : dirEntries fs.disk (inodeAt fs.disk idx) = content idx :=
  (h.orderly.laid idx hdir.1 hdir.2).dirEntries

theorem Ordered.readInode : jexfsReadInode fs.sb fs.disk idx = .ok (inodeAt fs.disk idx) := by
  rw [h.sb]
  exact readInode_eq hdir.1.1 (h.orderly.fits idx hdir.1 hdir.2)

theorem Ordered.findEntry_lookup (hlookup : lookup (content idx) name = some e) :
    jexfsFindEntry fs.sb fs.disk idx name = .ok (.ok e.ino) := by
  have hlaid := h.orderly.laid idx hdir.1 hdir.2
  obtain ⟨phys, bo, before, pre, post, after, hsearch, hhit⟩ := searchDir_lookup hlaid hlookup
  have hread := h.readInode hdir
  rw [h.sb] at hread ⊢
  rw [findEntry_found hread hdir.2 hsearch, (hhit.entry hlaid).1]

theorem Ordered.findEntry_missing (hsearchable : Searchable (inodeAt fs.disk idx) (content idx))
    (hlookup : lookup (content idx) name = none) :
    jexfsFindEntry fs.sb fs.disk idx name = .ok (.error .enoent) := by
  have hlaid := h.orderly.laid idx hdir.1 hdir.2
  obtain ⟨place, hsearch⟩ := searchDir_ends hlaid hsearchable name
  rcases searchDir_laid hlaid hsearch with ⟨rfl, -⟩ | ⟨_, _, _, _, _, _, _, -, hhit⟩
  · have hnot : ¬(!(inodeAt fs.disk idx).isDir) = true := by
      rw [hdir.2]
      decide
    simp only [jexfsFindEntry, bind_eq_ok]
    refine ⟨_, h.readInode hdir, ?_⟩
    rw [if_neg hnot, hsearch]
    rfl
  · rw [hhit.first] at hlookup
    cases hlookup

theorem Ordered.findEntry_iff : jexfsFindEntry fs.sb fs.disk idx name = .ok (.ok n) ↔
      ∃ e, lookup (content idx) name = some e ∧ e.ino = n := by
  constructor
  · intro hfind
    obtain ⟨_, _, _, _, e, _, _, hhit, rfl⟩ := findEntry_hit h.orderly hdir h.sb hfind
    exact ⟨e, hhit.first, rfl⟩
  · rintro ⟨e, hlookup, rfl⟩
    exact h.findEntry_lookup hdir hlookup

end

theorem Hit.findEntry {phys bo : Nat} {before after : List (List Entry)} {pre post : List Entry}
    (hhit : Hit fs.disk (inodeAt fs.disk idx) (content idx) name phys bo before pre e post after)
    (h : Ordered total fs content) (hdir : IsDirectory fs.disk idx) :
    jexfsFindEntry fs.sb fs.disk idx name ≠ .ok (.error .enoent) := by
  rw [h.findEntry_lookup hdir hhit.first]
  nofun

theorem open_plain (hname : name ≠ []) (hplain : name.head? ≠ some slash) :
    jexfsOpen fs name = jexfsFindEntry fs.sb fs.disk fs.cwd name := by
  cases name with
  | nil => exact absurd rfl hname
  | cons c cs =>
    have hc : c ≠ slash := fun heq => hplain (congrArg some heq)
    simp only [jexfsOpen, if_neg hc]

end LookUp

def Fs.entries (fs : Fs) : List (List Entry) := dirEntries fs.disk (inodeAt fs.disk fs.cwd)

def NamedOnce (es : List Entry) : Prop := (es.map Entry.name).Nodup

/-- No two live entries of a directory have one name. -/
def UniqueNames (d : Mem) : Prop :=
  ∀ idx, IsDirectory d idx → NamedOnce (live (dirEntries d (inodeAt d idx)))

def Absent (fs : Fs) (name : Name) : Prop :=
  ∀ e ∈ live fs.entries, ¬e.Names name

def Op.Fresh (fs : Fs) : Op → Prop
  | create name => (∃ n, jexfsOpen fs name = .ok (.ok n)) ∨ Absent fs name
  | mkdir name => Absent fs name
  | rename oldName newName => newName = oldName ∨
      jexfsFindEntry fs.sb fs.disk fs.cwd oldName = .ok (.error .enoent) ∨ Absent fs newName
  | _ => True

section NamedOnce

variable {e e' : Entry} {es es' rest : List Entry}

theorem NamedOnce.perm (h : NamedOnce es) (hperm : es.Perm es') : NamedOnce es' :=
  (hperm.map Entry.name).nodup h

theorem NamedOnce.cons (h : NamedOnce es) (he : ∀ f ∈ es, f.name ≠ e.name) : NamedOnce (e :: es) := by
  refine nodup_cons.mpr ⟨fun hmem => ?_, h⟩
  obtain ⟨f, hf, heq⟩ := mem_map.mp hmem
  exact he f hf heq

theorem NamedOnce.head (h : NamedOnce (e :: es)) : ∀ f ∈ es, f.name ≠ e.name := fun f hf heq =>
  (nodup_cons.mp h).1 (mem_map.mpr ⟨f, hf, heq⟩)

theorem NamedOnce.tail (h : NamedOnce (e :: es)) : NamedOnce es :=
  (nodup_cons.mp h).2

theorem NamedOnce.exchange (h : NamedOnce es) (hold : es.Perm (e :: rest))
    (hnew : es'.Perm (e' :: rest)) (he : ∀ f ∈ rest, f.name ≠ e'.name) : NamedOnce es' :=
  ((h.perm hold).tail.cons he).perm hnew.symm

end NamedOnce

structure Named (total : Nat) (fs : Fs) (content : Content) : Prop extends
    Ordered total fs content where
  once : ∀ i, NamedOnce (live (content i))

section Named

variable {total idx : Nat} {fs fs' : Fs} {content content' : Content} {op : Op} {r : Ret Nat}
  {gone new : Nat → Prop} {name newName : Name} {blocks' : List (List Entry)} {ino : Nat} {ft : UInt8}

theorem Ordered.entries (h : Ordered total fs content) : fs.entries = content fs.cwd :=
  h.dirEntries h.cwd

theorem Ordered.absent (h : Ordered total fs content) (habsent : Absent fs name) :
    ∀ f ∈ live (content fs.cwd), f.name ≠ name.take (nameLen name) := by
  intro f hf heq
  have hnot := habsent f (by rwa [h.entries])
  exact hnot ⟨(mem_live.mp hf).2, heq⟩

theorem Named.uniqueNames (h : Named total fs content) : UniqueNames fs.disk := by
  intro idx hdir
  rw [h.dirEntries hdir]
  exact h.once idx

theorem Named.enter (h : Named total fs content)
    (hentered : Entered fs name ft (content fs.cwd) ino blocks') (habsent : Absent fs name) :
    NamedOnce (live blocks') :=
  ((h.once fs.cwd).cons (h.absent habsent)).perm (hentered.adds.live hentered.nonzero).symm

theorem once_update (h : ∀ i, NamedOnce (live (content i))) (hnew : NamedOnce (live blocks')) :
    ∀ i, NamedOnce (live (Function.update content idx blocks' i)) := by
  intro i
  by_cases heq : i = idx
  · subst heq
    rwa [update_self]
  · rw [update_of_ne heq]
    exact h i

theorem once_dots (ino parent : Nat) : NamedOnce (live [dots ino parent]) := by
  have hall : NamedOnce (dots ino parent) := by
    show ([[46], [46, 46]] : List Name).Nodup
    decide
  refine Nodup.sublist (List.Sublist.map _ ?_) hall
  unfold live
  exact filter_sublist

theorem Named.step (h : Named total fs content) (hfresh : op.Fresh fs)
    (hdoes : Does fs content op r content' gone new) (hordered : Ordered total fs' content') :
    Named total fs' content' := by
  cases hdoes with
  | failed _ _ => exact ⟨hordered, h.once⟩
  | opened _ _ => exact ⟨hordered, h.once⟩
  | wrote _ _ _ _ _ => exact ⟨hordered, h.once⟩
  | turned _ => exact ⟨hordered, h.once⟩
  | created name ino blocks' hopen hentered =>
    have habsent := hfresh.resolve_left fun ⟨n, hn⟩ => by
      obtain ⟨e, he⟩ := hopen
      rw [hn] at he
      cases he
    exact ⟨hordered, once_update h.once (h.enter hentered habsent)⟩
  | made name ino blocks' hentered =>
    refine ⟨hordered, once_update (once_update h.once (once_dots ino fs.cwd)) ?_⟩
    exact h.enter hentered hfresh
  | removed name phys bo before pre e post after hhit _ _ _ =>
    exact ⟨hordered, once_update h.once ((h.once fs.cwd).perm hhit.live).tail⟩
  | relabelled oldName newName phys bo before pre e post after hhit _ =>
    have hold := (h.once fs.cwd).perm hhit.live
    have hnew := hhit.live_rename (newName.take (nameLen newName))
    refine ⟨hordered, once_update h.once ((h.once fs.cwd).exchange hhit.live hnew fun f hf => ?_)⟩
    rcases hfresh with rfl | hfind | habsent
    · rw [← hhit.names.2]
      exact hold.head f hf
    · exact absurd hfind (hhit.findEntry h.toOrdered h.cwd)
    · exact h.absent habsent f (hhit.live.mem_iff.mpr (mem_cons_of_mem _ hf))
  | reentered oldName newName phys bo before pre e post after blocks' hhit hlonger hadds =>
    refine ⟨hordered, once_update h.once
      ((h.once fs.cwd).exchange hhit.live (hadds.live hhit.names.1) fun f hf => ?_)⟩
    rcases hfresh with rfl | hfind | habsent
    · exact absurd hlonger (lt_irrefl _)
    · exact absurd hfind (hhit.findEntry h.toOrdered h.cwd)
    · exact h.absent habsent f (hhit.live.mem_iff.mpr (mem_cons_of_mem _ hf))

end Named

section Runs

variable {total : Nat} {files : List Mkjexfs.File} {fs₀ fs fs' : Fs} {content : Content} {name : Name}

theorem mounted_named (htotal : total ≤ 65536) (hfiles : HostFiles files)
    (hmount : Mounted total files fs) : ∃ content, Named total fs content := by
  obtain ⟨rest, ⟨hentries, -⟩, htidy⟩ := mounted_tidy (by omega) hfiles hmount
  refine ⟨_, htidy.toOrdered, fun i => ?_⟩
  unfold rooted
  split
  · have hflat : live [dots 1 1 ++ rest] = dots 1 1 ++ rest :=
      flatten_live fun e he => by
        have := (hentries.numbered he).1
        omega
    rw [hflat]
    -- no file of the host begins with a dot
    have hdot : ∀ f ∈ dots 1 1, f.name.head? = some 46 := by decide
    show ((dots 1 1 ++ rest).map Entry.name).Nodup
    rw [map_append]
    refine Nodup.append (by decide) (hentries.names.nodup hfiles.distinct) fun n hn hn' => ?_
    obtain ⟨f, hf, rfl⟩ := mem_map.mp hn
    obtain ⟨g, hg, heq⟩ := mem_map.mp hn'
    refine hentries.visible g hg ?_
    rw [heq]
    exact hdot f hf
  · exact once_dots i 1

theorem runs_named (htotal : total ≤ 65536) (hfiles : HostFiles files) (hmount : Mounted total files fs₀)
    (hrun : Runs (fun fs op => op.Even total fs ∧ op.Fresh fs) fs₀ fs) :
    ∃ content, Named total fs content :=
  Runs.invariant (P := Named total) (fun _ _ h => h.toOrdered) (fun _ _ _ _ hcond => hcond.1)
    (fun _ _ _ _ _ _ _ _ h hcond _ hdoes _ _ hordered => h.step hcond.2 hdoes hordered) hrun
    (mounted_named htotal hfiles hmount)

/-- A removal of a name that is no path, of an inode that is neither the root nor the working directory. -/
structure RemovesPlainly (fs : Fs) (name : Name) : Prop where
  plain : name.head? ≠ some slash
  target : ∀ n, jexfsFindEntry fs.sb fs.disk fs.cwd name = .ok (.ok n) →
    Live fs.disk n ∧ n ≠ 1 ∧ n ≠ fs.cwd
  searchable : Searchable (inodeAt fs.disk fs.cwd) fs.entries

theorem Searchable.congr {di di' : Inode} {blocks blocks' : List (List Entry)}
    (h : Searchable di blocks) (hsize : di' = di)
    (hspans : blocks'.map direntFormat.span = blocks.map direntFormat.span) : Searchable di' blocks' := by
  have hlength : blocks'.length = blocks.length := by
    simpa only [length_map] using congrArg List.length hspans
  subst hsize
  unfold Searchable
  rwa [hlength, hspans]

theorem map_span_deleted (before : List (List Entry)) (pre : List Entry) (e : Entry)
    (post : List Entry) (after : List (List Entry)) : (deleted before pre e post after).map direntFormat.span =
      (before ++ (pre ++ e :: post) :: after).map direntFormat.span := by
  rw [deleted, map_append, map_append, map_cons, map_cons, span_delete]

theorem lookup_absent {blocks : List (List Entry)}
    (h : ∀ f ∈ live blocks, f.name ≠ name.take (nameLen name)) : lookup blocks name = none := by
  cases hlookup : lookup blocks name with
  | none => rfl
  | some e =>
    obtain ⟨hmem, hnames⟩ := lookup_live hlookup
    exact absurd hnames.2 (h e hmem)

theorem Named.open_removed (h : Named total fs content) (hremoves : RemovesPlainly fs name)
    (hrun : jexfsRemove fs name = .ok (.ok 0, fs')) : jexfsOpen fs' name = .ok (.error .enoent) := by
  obtain ⟨hcwd, hdir⟩ := h.cwd
  have hname : name ≠ [] := by
    rintro rfl
    cases hrun
  rcases remove_orderly h.sb hcwd hdir h.orderly hremoves.target hrun with ⟨-, e, he⟩ |
    ⟨phys, bo, before, pre, e, post, after, hhit, -, -, -, hself, hleaves, hrec⟩
  · cases he
  have hordered := hleaves.ordered h.toOrdered (Ne.symm hself)
  have hdir' := hordered.cwd
  have hsearchable := hremoves.searchable
  rw [h.entries, hhit.lies] at hsearchable
  rw [open_plain hname hremoves.plain]
  rw [hleaves.cwd] at hdir' ⊢
  refine hordered.findEntry_missing hdir' ?_ ?_
  · rw [update_self]
    exact hsearchable.congr hrec (map_span_deleted before pre e post after)
  · rw [update_self]
    refine lookup_absent ?_
    rw [← hhit.names.2]
    exact ((h.once fs.cwd).perm hhit.live).head

/-- Where only new names are entered, none stands twice, and a removed one is gone. -/
theorem uniqueNames_of_fresh (htotal : total ≤ 65536) (hfiles : HostFiles files)
    (hmount : Mounted total files fs₀)
    (hrun : Runs (fun fs op => op.Even total fs ∧ op.Fresh fs) fs₀ fs) :
    UniqueNames fs.disk ∧ ∀ name fs', RemovesPlainly fs name →
      jexfsRemove fs name = .ok (.ok 0, fs') → jexfsOpen fs' name = .ok (.error .enoent) := by
  obtain ⟨content, hnamed⟩ := runs_named htotal hfiles hmount hrun
  exact ⟨hnamed.uniqueNames, fun _ _ => hnamed.open_removed⟩

/-- The file `a` is renamed to `b`, and `b` is removed. -/
theorem uniqueNames_of_fresh_file : ∃ fs₀ fs₁ fs, Mounted 256 [{ name := [97], data := [1, 2] }] fs₀ ∧
    jexfsRename fs₀ [97] [98] = .ok (.ok 0, fs₁) ∧ UniqueNames fs₁.disk ∧
    jexfsRemove fs₁ [98] = .ok (.ok 0, fs) ∧ jexfsOpen fs [98] = .ok (.error .enoent) := by
  have hcompute : ((freshFs 256 [{ name := [97], data := [1, 2] }]).map fun fs =>
      (jexfsRename fs [97] [98]).bind fun p => (jexfsRemove p.2 [98]).map fun q =>
        ((live fs.entries).all (fun e => decide ¬e.Names [98]) &&
          inodeBit p.2.disk 2 && p.2.cwd == 1 && (inodeAt p.2.disk 1).size.toNat == 19 &&
          decide (jexfsFindEntry p.2.sb p.2.disk p.2.cwd [98] = .ok (.ok 2)), p.1, q.1)) =
        some (.ok (true, .ok 0, .ok 0)) := by decide +kernel
  obtain ⟨fs₀, ⟨r, fs₁⟩, ⟨r', fs⟩, hmount, hrename, hremove, hcompute⟩ := freshFs_calls hcompute
  simp only [Prod.mk.injEq] at hcompute
  obtain ⟨hchecks, rfl, rfl⟩ := hcompute
  simp only [Bool.and_eq_true, beq_iff_eq, decide_eq_true_eq] at hchecks
  obtain ⟨⟨⟨⟨habsent, hbit⟩, hcwd⟩, hsize⟩, hfind⟩ := hchecks
  have hnames : Absent fs₀ [98] := fun e he => of_decide_eq_true (all_eq_true.mp habsent e he)
  obtain ⟨hunique, hremoved⟩ := uniqueNames_of_fresh (by decide) ⟨by decide, by decide⟩ hmount
    (.single ⟨.rename [97] [98], _, ⟨fun _ _ _ => .inl rfl, .inr (.inr hnames)⟩, hrename⟩)
  refine ⟨fs₀, fs₁, fs, hmount, hrename, hunique, hremove, hremoved [98] fs ⟨nofun, ?_, ?_⟩ hremove⟩
  · intro n hn
    rw [hfind] at hn
    cases hn
    rw [hcwd]
    exact ⟨⟨by decide, hbit⟩, by decide, by decide⟩
  · intro hwhole
    rw [hcwd, hsize] at hwhole
    omega

/-- A file can be created twice: its name is looked up in the first block only. -/
theorem not_uniqueNames_create : ∃ fs₀ fs₁ fs₂, Mounted 256 [] fs₀ ∧
    jexfsCreate fs₀ [120] = .ok (.ok 2, fs₁) ∧ jexfsCreate fs₁ [120] = .ok (.ok 3, fs₂) ∧
    ¬UniqueNames fs₂.disk := by
  have hcompute : ((freshFs 256 []).map fun fs =>
      (jexfsCreate fs [120]).bind fun p => (jexfsCreate p.2 [120]).map fun q =>
        (p.1, q.1, inodeBit q.2.disk 1 && (inodeAt q.2.disk 1).isDir &&
          decide ((live (dirEntries q.2.disk (inodeAt q.2.disk 1))).map Entry.name =
            [[46], [46, 46], [120], [120]]))) =
        some (.ok (.ok 2, .ok 3, true)) := by decide +kernel
  obtain ⟨fs₀, ⟨r, fs₁⟩, ⟨r', fs₂⟩, hmount, hfirst, hsecond, hcompute⟩ := freshFs_calls hcompute
  simp only [Prod.mk.injEq] at hcompute
  obtain ⟨rfl, rfl, hchecks⟩ := hcompute
  simp only [Bool.and_eq_true, decide_eq_true_eq] at hchecks
  obtain ⟨⟨hbit, hdir⟩, hnames⟩ := hchecks
  refine ⟨fs₀, fs₁, fs₂, hmount, hfirst, hsecond, fun h => ?_⟩
  have honce := h 1 ⟨⟨by decide, hbit⟩, hdir⟩
  rw [NamedOnce, hnames] at honce
  exact absurd honce (by decide)

end Runs

end JexOs.JexFs
