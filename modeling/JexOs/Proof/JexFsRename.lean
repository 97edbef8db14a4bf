import JexOs.Proof.JexFsNames

/-!
# What a rename does to its two names

Where the new name is free, and goes to a place that a search gets to, the inode changes its name and nothing
else.
-/

namespace JexOs.JexFs

open ByteMem Loop List Function

/-- What a rename keeps and what it changes. -/
structure RenameLaw (fs : Fs) (oldName newName : Name) (r : Ret Nat) (fs' : Fs) : Prop where
  found : r = .ok 0 → ∀ n, jexfsOpen fs oldName = .ok (.ok n) → jexfsOpen fs' newName = .ok (.ok n)
  kept : r = .ok 0 → ∀ e ∈ live fs.entries, e.Names oldName →
    ∃ e' ∈ live fs'.entries, e'.Names newName ∧ e'.ino = e.ino ∧ e'.fileType = e.fileType
  gone : r = .ok 0 → jexfsOpen fs' oldName = .ok (.error .enoent)
  once : r = .ok 0 → (live fs'.entries).countP (fun e => decide (e.Names newName)) = 1
  undone : ∀ err, r = .error err → ∀ idx, IsDirectory fs.disk idx →
    dirEntries fs'.disk (inodeAt fs'.disk idx) = dirEntries fs.disk (inodeAt fs.disk idx)

/-- A name of `len` bytes is entered evenly, where a search gets to it, and so that searches end. -/
structure EntersVisibly (total : Nat) (d : Mem) (idx len : Nat) : Prop where
  even : AddsEvenly total d idx len 0
  room : (inodeAt d idx).size.toNat % 1024 = 0 →
    ∀ off, markerSlot len (dirEntries d (inodeAt d idx)) = some off → off + 5 + len ≤ 1019 ∨
      (off + 5 + len = 1024 ∧ ∀ es ∈ dirEntries d (inodeAt d idx),
        direntFormat.span es ≤ 1019 ∨ direntFormat.span es = 1024)
  whole : (inodeAt d idx).size.toNat % 1024 = 0 ∨
    ∃ es ∈ dirEntries d (inodeAt d idx), ∃ e ∈ es, e.Reusable len

/-- No name is a path, the old one occurs at most once and the new one, which is no shorter, not at all. -/
structure RenamesCleanly (total : Nat) (fs : Fs) (oldName newName : Name) : Prop where
  oldPlain : oldName.head? ≠ some slash
  newPlain : newName.head? ≠ some slash
  once : (live fs.entries).countP (fun e => decide (e.Names oldName)) ≤ 1
  absent : Absent fs newName
  searchable : Searchable (inodeAt fs.disk fs.cwd) fs.entries
  lengths : ∀ phys bo, searchDir fs.disk (inodeAt fs.disk fs.cwd) oldName = .ok (some (phys, bo)) →
    nameLen newName = nameLen oldName ∨ (nameLen oldName < nameLen newName ∧
      readBlock fs.disk phys (bo + 4) = direntFile ∧
      EntersVisibly total (deleteEntry fs.disk phys bo) fs.cwd (nameLen newName))

section Place

variable {total : Nat} {d d' : Mem} {di di' : Inode} {blocks blocks' before after : List (List Entry)}
  {es rest : List Entry} {e e' : Entry} {name : Name}

theorem restsFit_full {spans : List Nat} (h : RestsFit spans) (hlong : ∀ n ∈ spans, 1019 < n) :
    ∀ n ∈ spans, n = 1024 := by
  induction spans with
  | nil => exact fun n hn => absurd hn not_mem_nil
  | cons m spans ih =>
    have hm := hlong m mem_cons_self
    obtain ⟨heq, hrest⟩ := h.resolve_left (by omega)
    intro n hn
    rcases mem_cons.mp hn with rfl | hn
    · exact heq
    · exact ih hrest (fun k hk => hlong k (mem_cons_of_mem _ hk)) n hn

theorem RestsFit.left {before after : List Nat} (h : RestsFit (before ++ after)) : RestsFit before := by
  induction before with
  | nil => trivial
  | cons n before ih => exact h.imp_right fun ⟨hn, hrest⟩ => ⟨hn, ih hrest⟩

theorem restsFit_of_forall {spans : List Nat} (h : ∀ n ∈ spans, n ≤ 1019 ∨ n = 1024) : RestsFit spans := by
  induction spans with
  | nil => trivial
  | cons n spans ih =>
    exact (h n mem_cons_self).imp_right fun hn =>
      ⟨hn, ih fun m hm => h m (mem_cons_of_mem _ hm)⟩

theorem Searchable.full (h : Searchable di (before ++ after))
    (hwhole : before ≠ [] → di.size.toNat = 1024 * (before ++ after).length)
    (hlong : ∀ es ∈ before, 1019 < direntFormat.span es) : ∀ es ∈ before, direntFormat.span es = 1024 := by
  intro es hes
  have hfit := h (hwhole (ne_nil_of_mem hes))
  rw [map_append] at hfit
  refine restsFit_full (RestsFit.left hfit) (fun n hn => ?_) _ (mem_map_of_mem hes)
  obtain ⟨b, hb, rfl⟩ := mem_map.mp hn
  exact hlong b hb

theorem Laid.whole (h : Laid d di blocks) (hsize : di.size.toNat % 1024 = 0) :
    di.size.toNat = 1024 * blocks.length := by
  rcases h.size with hfull | ⟨es, hne, rfl, hspan⟩
  · exact hfull
  · have hinside := (h.block 0 es rfl).inside
    obtain ⟨e, rest, rfl⟩ := exists_cons_of_ne_nil hne
    have hpos := size_pos e
    rw [length_singleton]
    rw [Format.span_cons] at hspan hinside
    omega

theorem visible_middle (h : ∀ b ∈ before, direntFormat.span b = 1024) (he : e ∈ es) :
    e ∈ visible (before ++ es :: after) := by
  obtain ⟨more, hmore⟩ := visible_cons es after
  rw [visible_append h, hmore]
  exact mem_append_right _ (mem_append_left _ he)

theorem Adds.visible (h : Adds di e blocks blocks') (hlaid : Laid d di blocks)
    (hsearchable : Searchable di blocks) (hwhole : di.size.toNat % 1024 = 0 ∨
      ∃ es ∈ blocks, ∃ x ∈ es, x.Reusable e.name.length) : e ∈ JexFs.visible blocks' := by
  cases h with
  | reuse before after pre post old hlong _ _ =>
    refine visible_middle (hsearchable.full (fun hne => ?_) hlong) (by simp)
    exact hlaid.full_or_only.resolve_right fun ⟨hnil, _⟩ => hne hnil
  | append before after es hlong _ hsize _ =>
    exact visible_middle (hsearchable.full (fun _ => hsize) hlong) (by simp)
  | grow blocks hlong hnone =>
    have hsize := hlaid.whole (hwhole.resolve_right fun ⟨es, hes, x, hx, hreuse⟩ =>
      hnone es hes x hx hreuse)
    have hfull := Searchable.full (by rwa [append_nil])
      (fun _ => by rw [append_nil, hsize]) (hlong.resolve_right (by omega))
    exact visible_middle hfull mem_cons_self

theorem Adds.searchable (h : Adds di e blocks blocks') (hlaid : Laid d di blocks)
    (hsearchable : Searchable di blocks) (hwhole : di.size.toNat % 1024 = 0 ∨
      ∃ es ∈ blocks, ∃ x ∈ es, x.Reusable e.name.length)
    (hroom : di.size.toNat % 1024 = 0 → ∀ off, markerSlot e.name.length blocks = some off →
      off + 5 + e.name.length ≤ 1019 ∨ (off + 5 + e.name.length = 1024 ∧
        ∀ es ∈ blocks, direntFormat.span es ≤ 1019 ∨ direntFormat.span es = 1024))
    (hsize' : di' = di ∨ blocks'.length = blocks.length + 1) (hlen : e.name.length ≤ 1014) :
    Searchable di' blocks' := by
  have hsize : direntFormat.size e = 5 + e.name.length := rfl
  cases h with
  | reuse before after pre post old _ _ hname =>
    have hold : direntFormat.size old = direntFormat.size e := congrArg (5 + ·) hname
    refine hsearchable.congr (hsize'.resolve_right (by simp)) ?_
    simp only [map_append, map_cons, Format.span_append, Format.span_cons, hold]
  | append before after es hlong hspan hfull hmarker =>
    intro _
    have hfulls : ∀ n ∈ before.map direntFormat.span, n = 1024 := fun n hn => by
      obtain ⟨b, hb, rfl⟩ := mem_map.mp hn
      exact hsearchable.full (fun _ => hfull) hlong b hb
    have hnew : direntFormat.span (es ++ [e]) = direntFormat.span es + 5 + e.name.length := by
      rw [Format.span_append, Format.span_cons, Format.span_nil, hsize]
      exact (Nat.add_assoc _ 5 _).symm
    rw [map_append, map_cons, restsFit_append hfulls, RestsFit, hnew]
    rcases hroom (by rw [hfull]; exact Nat.mul_mod_right 1024 _) _ hmarker with hfit | ⟨hexact, hall⟩
    · exact .inl hfit
    · refine .inr ⟨hexact, restsFit_of_forall fun n hn => ?_⟩
      obtain ⟨b, hb, rfl⟩ := mem_map.mp hn
      exact hall b (by simp [hb])
  | grow blocks hlong hnone =>
    have hkept : ¬∃ es ∈ blocks, ∃ x ∈ es, x.Reusable e.name.length := by
      rintro ⟨es, hes, x, hx, hreuse⟩
      exact hnone es hes x hx hreuse
    have hsize := hlaid.whole (hwhole.resolve_right hkept)
    have hfull := Searchable.full (by rwa [append_nil])
      (fun _ => by rw [append_nil, hsize]) (hlong.resolve_right (by omega))
    intro _
    rw [map_append, restsFit_append fun n hn => by
      obtain ⟨b, hb, rfl⟩ := mem_map.mp hn
      exact hfull b hb]
    refine .inl ?_
    rw [Format.span_cons, Format.span_nil]
    omega

theorem lookup_only (hmem : e ∈ visible blocks) (hnames : e.Names name)
    (hperm : (live blocks).Perm (e :: rest)) (hrest : ∀ f ∈ rest, f.name ≠ name.take (nameLen name)) :
    lookup blocks name = some e := by
  cases hlookup : lookup blocks name with
  | none =>
    have hnone := find?_eq_none.mp hlookup e hmem
    exact absurd (decide_eq_true hnames) hnone
  | some f =>
    obtain ⟨hf, hnamesF⟩ := lookup_live hlookup
    rcases mem_cons.mp (hperm.mem_iff.mp hf) with rfl | hf
    · rfl
    · exact absurd hnamesF.2 (hrest f hf)

end Place

section Rename

variable {total : Nat} {fs fs' : Fs} {content content' : Content} {oldName newName : Name}
  {gone new : Nat → Prop} {r : Ret Nat} {e e' : Entry} {rest : List Entry}

theorem take_nameLen {name : Name} (h : name.length ≤ 255) : name.take (nameLen name) = name := by
  rw [nameLen_short h, take_length]

theorem RenameLaw.exchange (e' : Entry) (h : Ordered total fs content) (h' : Ordered total fs' content')
    (hcwd : fs'.cwd = fs.cwd) (hold : oldName ≠ [] ∧ oldName.head? ≠ some slash)
    (hnew : newName ≠ [] ∧ newName.head? ≠ some slash)
    (honce : (live fs.entries).countP (fun e => decide (e.Names oldName)) ≤ 1)
    (habsent : Absent fs newName) (hlookup : lookup (content fs.cwd) oldName = some e)
    (hbefore : (live (content fs.cwd)).Perm (e :: rest))
    (hafter : (live (content' fs.cwd)).Perm (e' :: rest)) (hnames : e'.Names newName)
    (hother : e'.name ≠ oldName.take (nameLen oldName)) (hino : e'.ino = e.ino)
    (htype : e'.fileType = e.fileType) (hvisible : e' ∈ visible (content' fs.cwd))
    (hsearchable : Searchable (inodeAt fs'.disk fs.cwd) (content' fs.cwd)) :
    RenameLaw fs oldName newName (.ok 0) fs' := by
  have hdir' := h'.cwd
  have hentries' := h'.entries
  rw [hcwd] at hdir' hentries'
  obtain ⟨-, hnamesOld⟩ := lookup_live hlookup
  have hlive : ∀ f ∈ rest, f.ino ≠ 0 := fun f hf =>
    (mem_live.mp (hbefore.mem_iff.mpr (mem_cons_of_mem _ hf))).2
  have hrestOld : ∀ f ∈ rest, f.name ≠ oldName.take (nameLen oldName) := by
    intro f hf heq
    rw [h.entries, hbefore.countP_eq, countP_cons_of_pos (by exact decide_eq_true hnamesOld)] at honce
    have hzero : rest.countP (fun e => decide (e.Names oldName)) = 0 := by omega
    exact countP_eq_zero.mp hzero f hf (decide_eq_true (And.intro (hlive f hf) heq))
  have hrestNew : ∀ f ∈ rest, f.name ≠ newName.take (nameLen newName) := fun f hf =>
    h.absent habsent f (hbefore.mem_iff.mpr (mem_cons_of_mem _ hf))
  have hfound := h'.findEntry_lookup hdir' (lookup_only hvisible hnames hafter hrestNew)
  refine ⟨fun _ n hopen => ?_, fun _ f hf hfold => ?_, fun _ => ?_, fun _ => ?_, nofun⟩
  · rw [open_plain hold.1 hold.2, h.findEntry_lookup h.cwd hlookup] at hopen
    cases hopen
    rw [open_plain hnew.1 hnew.2, hcwd, hfound, hino]
  · rw [h.entries] at hf
    rw [hentries']
    refine ⟨e', hafter.mem_iff.mpr mem_cons_self, hnames, ?_⟩
    rcases mem_cons.mp (hbefore.mem_iff.mp hf) with rfl | hf
    · exact ⟨hino, htype⟩
    · exact absurd hfold.2 (hrestOld f hf)
  · rw [open_plain hold.1 hold.2, hcwd]
    refine h'.findEntry_missing hdir' hsearchable (lookup_absent fun f hf => ?_)
    rcases mem_cons.mp (hafter.mem_iff.mp hf) with rfl | hf
    · exact hother
    · exact hrestOld f hf
  · rw [hentries', hafter.countP_eq, countP_cons_of_pos (by exact decide_eq_true hnames)]
    have hzero : rest.countP (fun e => decide (e.Names newName)) = 0 :=
      countP_eq_zero.mpr fun f hf hnamed => hrestNew f hf (of_decide_eq_true hnamed).2
    omega

theorem RenameLaw.undo {err : Errno} (h : Ordered total fs content) (h' : Ordered total fs' content)
    (hmoves : Moves (fun _ => False) (fun _ => False) fs.disk fs'.disk) :
    RenameLaw fs oldName newName (.error err) fs' := by
  refine ⟨nofun, nofun, nofun, nofun, fun _ _ idx hdir => ?_⟩
  have hdir' : IsDirectory fs'.disk idx :=
    ⟨(hmoves.live idx).mpr (.inl ⟨hdir.1, id⟩), (hmoves.kind idx hdir.1 id).trans hdir.2⟩
  rw [h.dirEntries hdir, h'.dirEntries hdir']

theorem Ordered.renameLaw (h : Ordered total fs content) (hclean : RenamesCleanly total fs oldName newName)
    (hold : oldName ≠ [] ∧ oldName.length ≤ 255) (hnew : newName ≠ [] ∧ newName.length ≤ 255)
    (hne : oldName ≠ newName) (hrun : jexfsRename fs oldName newName = .ok (r, fs')) :
    RenameLaw fs oldName newName r fs' := by
  obtain ⟨hcwd, hdir⟩ := h.cwd
  have htakeOld := take_nameLen hold.2
  have htakeNew := take_nameLen hnew.2
  have heven : RenamesEvenly total fs.disk fs.cwd oldName newName := fun phys bo hsearch =>
    (hclean.lengths phys bo hsearch).imp_right fun ⟨hlonger, _, henters⟩ => ⟨hlonger, henters.even⟩
  have hsearchable := hclean.searchable
  rw [h.entries] at hsearchable
  rcases rename_orderly h.sb hcwd hdir h.orderly heven hrun with
    ⟨rfl, rfl⟩ | ⟨phys, bo, before, pre, e, post, after, hsearch, hhit, hend⟩
  · exact RenameLaw.undo h h Moves.refl
  have hlaid := h.orderly.laid fs.cwd hcwd hdir
  rcases hend with ⟨hequal, rfl, hleaves, hrec⟩ |
    ⟨hlonger, ⟨⟨err, rfl⟩, hleaves⟩ | ⟨rfl, blocks', hadds, hleaves, hsize⟩⟩
  · have hlen := hhit.names.length
    refine RenameLaw.exchange { e with name := newName.take (nameLen newName) } h
      (hleaves.ordered h id) hleaves.cwd ⟨hold.1, hclean.oldPlain⟩
      ⟨hnew.1, hclean.newPlain⟩ hclean.once hclean.absent hhit.first hhit.live
      ?_ ⟨hhit.names.1, rfl⟩ ?_ rfl rfl ?_ ?_
    · rw [update_self]
      exact hhit.live_rename _
    · rw [htakeOld, htakeNew]
      exact Ne.symm hne
    · rw [update_self]
      exact visible_middle hhit.full (by simp)
    · rw [update_self]
      refine hsearchable.congr hrec ?_
      rw [hhit.lies]
      simp only [map_append, map_cons, span_rename (hequal.trans hlen.symm)]
  · exact RenameLaw.undo h (hleaves.ordered h id) hleaves.moves
  · obtain ⟨-, htype, henters⟩ := (hclean.lengths phys bo hsearch).resolve_left hlonger.ne'
    obtain ⟨hmid, hworks, hrec⟩ := deleteEntry_orderly h.orderly hcwd hdir hhit
    have hlaid' := hmid.laid fs.cwd ((hworks.live fs.cwd).mpr hcwd) (by rw [hrec, hdir])
    have hroom := henters.room
    have hwhole := henters.whole
    rw [hlaid'.dirEntries] at hroom hwhole
    rw [hrec, update_self] at hroom hwhole hlaid'
    rw [← newEntry_length] at hroom hwhole
    have hspans : (deleted before pre e post after).map direntFormat.span =
        (content fs.cwd).map direntFormat.span := by
      rw [map_span_deleted, hhit.lies]
    have hlength : (deleted before pre e post after).length = (content fs.cwd).length := by
      simpa only [length_map] using congrArg List.length hspans
    have hmidSearch := hsearchable.congr rfl hspans
    have hblock := hhit.block hlaid
    have hfile : e.fileType = direntFile := by
      rw [← hblock.fileType, ← hhit.bo]
      exact htype
    have hshort : (newEntry e.ino newName direntFile).name.length ≤ 1014 := by
      rw [newEntry_length, nameLen_short hnew.2]
      exact hnew.2.trans (by decide)
    refine RenameLaw.exchange (newEntry e.ino newName direntFile) h
      (hleaves.ordered h id) hleaves.cwd ⟨hold.1, hclean.oldPlain⟩
      ⟨hnew.1, hclean.newPlain⟩ hclean.once hclean.absent hhit.first hhit.live
      ?_ ⟨hhit.names.1, rfl⟩ ?_ rfl hfile.symm ?_ ?_
    · rw [update_self]
      exact hadds.live hhit.names.1
    · show newName.take (nameLen newName) ≠ oldName.take (nameLen oldName)
      rw [htakeOld, htakeNew]
      exact Ne.symm hne
    · rw [update_self]
      exact hadds.visible hlaid' hmidSearch hwhole
    · rw [update_self]
      exact hadds.searchable hlaid' hmidSearch hwhole hroom (by rwa [hlength]) hshort

/-- A clean rename keeps the law in every state of an even run. -/
theorem renameLaw_of_clean {files : List Mkjexfs.File} {fs₀ : Fs} (htotal : total ≤ 65536)
    (hfiles : HostFiles files) (hmount : Mounted total files fs₀)
    (hreached : Runs (Op.Even total) fs₀ fs) (hold : oldName ≠ [] ∧ oldName.length ≤ 255)
    (hnew : newName ≠ [] ∧ newName.length ≤ 255) (hne : oldName ≠ newName)
    (hclean : RenamesCleanly total fs oldName newName)
    (hrun : jexfsRename fs oldName newName = .ok (r, fs')) : RenameLaw fs oldName newName r fs' := by
  obtain ⟨content, hordered⟩ := runs_ordered htotal hfiles hmount hreached
  exact hordered.renameLaw hclean hold hnew hne hrun

/-- The file `a` is renamed to `b`. -/
theorem renameLaw_of_clean_file : ∃ fs₀ fs, Mounted 256 [{ name := [97], data := [1, 2] }] fs₀ ∧
    jexfsRename fs₀ [97] [98] = .ok (.ok 0, fs) ∧ RenameLaw fs₀ [97] [98] (.ok 0) fs := by
  have hcompute : ((freshFs 256 [{ name := [97], data := [1, 2] }]).map fun fs =>
      (jexfsRename fs [97] [98]).map fun p =>
        ((live fs.entries).all (fun e => decide ¬e.Names [98]) &&
          decide ((live fs.entries).countP (fun e => decide (e.Names [97])) ≤ 1) &&
          (inodeAt fs.disk fs.cwd).size.toNat == 19, p.1)) =
        some (.ok (true, .ok 0)) := by decide +kernel
  obtain ⟨fs₀, ⟨r, fs⟩, hmount, hrename, hcompute⟩ := freshFs_call hcompute
  simp only [Prod.mk.injEq] at hcompute
  obtain ⟨hchecks, rfl⟩ := hcompute
  simp only [Bool.and_eq_true, beq_iff_eq, decide_eq_true_eq] at hchecks
  obtain ⟨⟨habsent, honce⟩, hsize⟩ := hchecks
  refine ⟨fs₀, fs, hmount, hrename, ?_⟩
  refine renameLaw_of_clean (by decide) ⟨by decide, by decide⟩ hmount .refl ⟨nofun, by decide⟩
    ⟨nofun, by decide⟩ (by decide) ?_ hrename
  exact
    { oldPlain := nofun
      newPlain := nofun
      once := honce
      absent := fun e he => of_decide_eq_true (all_eq_true.mp habsent e he)
      searchable := fun hwhole => by
        omega
      lengths := fun _ _ _ => .inl rfl }

/-- A file is renamed to a name that is there. -/
theorem not_renameLaw_present :
    ∃ fs₀ fs, Mounted 256 [{ name := [97], data := [] }, { name := [98], data := [] }] fs₀ ∧
      jexfsRename fs₀ [97] [98] = .ok (.ok 0, fs) ∧ ¬RenameLaw fs₀ [97] [98] (.ok 0) fs := by
  have hcompute : ((freshFs 256 [{ name := [97], data := [] }, { name := [98], data := [] }]).map
      fun fs => (jexfsRename fs [97] [98]).map fun p =>
        (p.1, (live p.2.entries).countP fun e => decide (e.Names [98]))) =
        some (.ok (.ok 0, 2)) := by decide
  obtain ⟨fs₀, ⟨r, fs⟩, hmount, hrename, hcompute⟩ := freshFs_call hcompute
  simp only [Prod.mk.injEq] at hcompute
  obtain ⟨rfl, hcount⟩ := hcompute
  refine ⟨fs₀, fs, hmount, hrename, fun h => ?_⟩
  rw [h.once rfl] at hcount
  cases hcount

end Rename

end JexOs.JexFs
