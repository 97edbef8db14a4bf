import JexOs.Proof.JexFsRun

/-!
# No entry names a free inode

As long as all calls are made in the root, its entries name allocated inodes, no two of them the same one unless
that is the root itself.
-/

namespace JexOs.JexFs

open ByteMem Ownership Loop List Function

def live (blocks : List (List Entry)) : List Entry :=
  blocks.flatten.filter fun e => decide (e.ino ≠ 0)

section LiveEntries

variable {di : Inode} {blocks blocks' before after : List (List Entry)} {pre post : List Entry}
  {e old : Entry}

theorem mem_live : e ∈ live blocks ↔ e ∈ blocks.flatten ∧ e.ino ≠ 0 := by
  unfold live
  rw [mem_filter, decide_eq_true_iff]

theorem live_middle (before after : List (List Entry)) (pre post xs : List Entry) :
    (live (before ++ (pre ++ (xs ++ post)) :: after)).Perm
      ((xs.filter fun e => decide (e.ino ≠ 0)) ++ live (before ++ (pre ++ post) :: after)) := by
  unfold live
  simp only [flatten_append, flatten_cons, filter_append, append_assoc]
  rw [← Multiset.coe_eq_coe]
  simp only [← Multiset.coe_add]
  ac_rfl

theorem filter_used (he : e.ino ≠ 0) : ([e].filter fun e => decide (e.ino ≠ 0)) = [e] :=
  filter_cons_of_pos (decide_eq_true he)

theorem live_used (before after : List (List Entry)) (pre post : List Entry) (he : e.ino ≠ 0) :
    (live (before ++ (pre ++ e :: post) :: after)).Perm (e :: live (before ++ (pre ++ post) :: after)) := by
  have hperm := live_middle before after pre post [e]
  rwa [filter_used he] at hperm

theorem live_unused (he : e.ino = 0) :
    (live (before ++ (pre ++ e :: post) :: after)).Perm (live (before ++ (pre ++ post) :: after)) := by
  have hperm := live_middle before after pre post [e]
  have hfilter : ([e].filter fun e => decide (e.ino ≠ 0)) = [] := filter_cons_of_neg (by simpa using he)
  rwa [hfilter] at hperm

theorem Adds.live (h : Adds di e blocks blocks')
    (he : e.ino ≠ 0) : (live blocks').Perm (e :: live blocks) := by
  cases h with
  | reuse before after pre post old _ hold _ =>
    exact (live_used _ _ _ _ he).trans (List.Perm.cons _ (live_unused hold).symm)
  | append before after es _ _ _ _ =>
    have hperm := live_used before after es [] he
    rwa [append_nil] at hperm
  | grow blocks _ _ =>
    have hperm := live_middle blocks [] [] [] [e]
    rw [filter_used he] at hperm
    refine hperm.trans (List.Perm.cons _ ?_)
    simp [JexFs.live]

theorem Hit.live {d : Mem} {name : Name} {phys bo : Nat}
    (hit : Hit d di blocks name phys bo before pre e post after) :
    (JexFs.live blocks).Perm (e :: JexFs.live (deleted before pre e post after)) := by
  rw [hit.lies]
  exact (live_used _ _ _ _ hit.names.1).trans (List.Perm.cons _ (live_unused rfl).symm)

theorem Hit.live_rename {d : Mem} {name : Name} {phys bo : Nat} (newName : Name)
    (hit : Hit d di blocks name phys bo before pre e post after) :
    (JexFs.live (before ++ (pre ++ { e with name := newName } :: post) :: after)).Perm
      ({ e with name := newName } :: JexFs.live (deleted before pre e post after)) := by
  have hino : ({ e with name := newName } : Entry).ino ≠ 0 := hit.names.1
  exact (live_used _ _ _ _ hino).trans (List.Perm.cons _ (live_unused rfl).symm)

end LiveEntries

def Distinct (es : List Entry) : Prop := es.Pairwise fun e f => e.ino = f.ino → e.ino = 1

section Distinct

variable {e : Entry} {es es' : List Entry}

theorem Distinct.perm (h : Distinct es) (hperm : es.Perm es') : Distinct es' :=
  (hperm.pairwise_iff fun hef heq => heq.trans (hef heq.symm)).mp h

theorem Distinct.cons (h : Distinct es) (he : ∀ f ∈ es, f.ino = e.ino → e.ino = 1) : Distinct (e :: es) :=
  pairwise_cons.mpr ⟨fun f hf heq => he f hf heq.symm, h⟩

end Distinct

/-- All directories but the root are as they were made, and the entries of the root name allocated
inodes. -/
structure Tidy (total : Nat) (fs : Fs) (content : Content) : Prop extends
    Ordered total fs content where
  inRoot : fs.cwd = 1
  dirs : ∀ i, i ≠ 1 → content i = [dots i 1]
  named : ∀ e ∈ live (content 1), Live fs.disk e.ino
  distinct : Distinct (live (content 1))

/-- The call is made in the root, enters names evenly, writes to files only, and does not delete the
root. -/
def Op.Plain (total : Nat) (fs : Fs) : Op → Prop
  | remove name => jexfsFindEntry fs.sb fs.disk fs.cwd name ≠ .ok (.ok 1)
  | chdir _ => False
  | op => op.Even total fs

section Tidy

variable {total : Nat} {fs fs' : Fs} {content content' : Content} {op : Op} {r : Ret Nat}
  {gone new : Nat → Prop} {name : Name}

theorem findEntry_hit {idx n : Nat} (h : Orderly fs.disk content) (hdir : IsDirectory fs.disk idx)
    (hsb : fs.sb = layout total) (hfind : jexfsFindEntry fs.sb fs.disk idx name = .ok (.ok n)) :
    ∃ phys bo before pre e post after,
      Hit fs.disk (inodeAt fs.disk idx) (content idx) name phys bo before pre e post after ∧ e.ino = n := by
  rw [hsb] at hfind
  simp only [jexfsFindEntry, bind_eq_ok] at hfind
  obtain ⟨di, hread, hfind⟩ := hfind
  rcases readInode_cases hread with ⟨hge, -⟩ | ⟨-, -, rfl⟩
  · exact absurd hdir.1.1 (by omega)
  split at hfind
  · cases hfind
  simp only [bind_eq_ok] at hfind
  obtain ⟨place, hsearch, hfind⟩ := hfind
  cases place with
  | none => cases hfind
  | some p =>
    obtain ⟨phys, bo⟩ := p
    cases hfind
    obtain ⟨before, pre, e, post, after, hhit⟩ := h.hit hdir.1 hdir.2 hsearch
    exact ⟨phys, bo, before, pre, e, post, after, hhit, (hhit.entry (h.laid idx hdir.1 hdir.2)).1.symm⟩

theorem Hit.mem_live {d : Mem} {di : Inode} {blocks before after : List (List Entry)} {phys bo : Nat}
    {pre post : List Entry} {e : Entry}
    (hit : Hit d di blocks name phys bo before pre e post after) : e ∈ JexFs.live blocks :=
  hit.live.mem_iff.mpr mem_cons_self

variable (h : Tidy total fs content)

include h

theorem Tidy.even (hplain : op.Plain total fs) : op.Even total fs := by
  cases op with
  | remove name =>
    intro n hn
    obtain ⟨phys, bo, before, pre, e, post, after, hhit, rfl⟩ := findEntry_hit h.orderly h.cwd h.sb hn
    have hroot : e.ino ≠ 1 := fun heq => hplain (heq ▸ hn)
    rw [h.inRoot] at hhit ⊢
    exact ⟨h.named e hhit.mem_live, hroot, hroot⟩
  | chdir idx => exact hplain.elim
  | create name => exact hplain
  | mkdir name => exact hplain
  | write idx buffer size offset => exact hplain
  | rename oldName newName => exact hplain

theorem Tidy.enter {ino : Nat} {ft : UInt8} {blocks' : List (List Entry)}
    (hentered : Entered fs name ft (content fs.cwd) ino blocks')
    (hmoves : Moves (fun _ => False) (· = ino) fs.disk fs'.disk) :
    (∀ e ∈ live blocks', Live fs'.disk e.ino) ∧ Distinct (live blocks') := by
  have hadds := hentered.adds
  rw [h.inRoot] at hadds
  have hperm := hadds.live hentered.nonzero
  refine ⟨fun e he => (hmoves.live e.ino).mpr ?_, ?_⟩
  · rcases mem_cons.mp (hperm.mem_iff.mp he) with rfl | hold
    · exact .inr rfl
    · exact .inl ⟨h.named e hold, id⟩
  · refine (h.distinct.cons fun f hf heq => ?_).perm hperm.symm
    have hlive := h.named f hf
    rw [heq] at hlive
    exact absurd hlive hentered.free

theorem Tidy.relabel {e e' : Entry} {blocks' : List (List Entry)} {rest : List Entry}
    (hold : (live (content 1)).Perm (e :: rest)) (hnew : (live blocks').Perm (e' :: rest))
    (hino : e'.ino = e.ino) (hmoves : Moves (fun _ => False) (fun _ => False) fs.disk fs'.disk) :
    (∀ e ∈ live blocks', Live fs'.disk e.ino) ∧ Distinct (live blocks') := by
  have hnamed : ∀ f ∈ e :: rest, Live fs'.disk f.ino := fun f hf =>
    (hmoves.live f.ino).mpr (.inl ⟨h.named f (hold.mem_iff.mpr hf), id⟩)
  obtain ⟨hfirst, hrest⟩ := pairwise_cons.mp (h.distinct.perm hold)
  refine ⟨fun f hf => ?_, ?_⟩
  · rcases mem_cons.mp (hnew.mem_iff.mp hf) with rfl | hf
    · rw [hino]
      exact hnamed e mem_cons_self
    · exact hnamed f (mem_cons_of_mem _ hf)
  · refine Distinct.perm (Distinct.cons hrest fun f hf heq => ?_) hnew.symm
    rw [hino] at heq ⊢
    exact hfirst f hf heq.symm

theorem update_dirs {blocks' : List (List Entry)} :
    ∀ i, i ≠ 1 → Function.update content fs.cwd blocks' i = [dots i 1] := by
  intro i hi
  rw [h.inRoot, update_of_ne hi]
  exact h.dirs i hi

theorem Tidy.step (hplain : op.Plain total fs)
    (hdoes : Does fs content op r content' gone new) (hmoves : Moves gone new fs.disk fs'.disk)
    (hcwd : fs'.cwd = op.cwd fs) (hordered : Ordered total fs' content') : Tidy total fs' content' := by
  have hroot : fs'.cwd = 1 := by
    cases op with
    | chdir idx => exact hplain.elim
    | _ => exact hcwd.trans h.inRoot
  have hself : ∀ blocks', Function.update content fs.cwd blocks' 1 = blocks' := fun blocks' => by
    rw [h.inRoot, update_self]
  have hkept : Moves (fun _ => False) (fun _ => False) fs.disk fs'.disk →
      ∀ e ∈ live (content 1), Live fs'.disk e.ino := fun hmoves e he =>
    (hmoves.live e.ino).mpr (.inl ⟨h.named e he, id⟩)
  cases hdoes with
  | failed _ _ => exact ⟨hordered, hroot, h.dirs, hkept hmoves, h.distinct⟩
  | opened _ _ => exact ⟨hordered, hroot, h.dirs, hkept hmoves, h.distinct⟩
  | wrote _ _ _ _ _ => exact ⟨hordered, hroot, h.dirs, hkept hmoves, h.distinct⟩
  | turned idx => exact hplain.elim
  | created name ino blocks' _ hentered =>
    obtain ⟨hnamed, hdistinct⟩ := h.enter hentered hmoves
    refine ⟨hordered, hroot, update_dirs h, ?_, ?_⟩
    · rwa [hself]
    · rwa [hself]
  | made name ino blocks' hentered =>
    obtain ⟨hnamed, hdistinct⟩ := h.enter hentered hmoves
    refine ⟨hordered, hroot, fun i hi => ?_, ?_, ?_⟩
    · rw [h.inRoot, update_of_ne hi]
      by_cases heq : i = ino
      · rw [heq, update_self]
      · rw [update_of_ne heq]
        exact h.dirs i hi
    · rwa [h.inRoot, update_self]
    · rwa [h.inRoot, update_self]
  | removed name phys bo before pre e post after hhit _ hne _ =>
    rw [h.inRoot] at hhit
    have hperm := hhit.live
    obtain ⟨hfirst, hrest⟩ := pairwise_cons.mp (h.distinct.perm hperm)
    refine ⟨hordered, hroot, update_dirs h, ?_, ?_⟩
    · -- the inode that goes is named by no other entry
      rw [hself]
      intro f hf
      have hmem := hperm.mem_iff.mpr (mem_cons_of_mem _ hf)
      refine (hmoves.live f.ino).mpr (.inl ⟨h.named f hmem, fun heq => hne ?_⟩)
      exact hfirst f hf heq.symm
    · rwa [hself]
  | relabelled oldName newName phys bo before pre e post after hhit _ =>
    rw [h.inRoot] at hhit
    obtain ⟨hnamed, hdistinct⟩ :=
      h.relabel hhit.live (hhit.live_rename (newName.take (nameLen newName))) rfl hmoves
    refine ⟨hordered, hroot, update_dirs h, ?_, ?_⟩
    · rwa [hself]
    · rwa [hself]
  | reentered oldName newName phys bo before pre e post after blocks' hhit _ hadds =>
    rw [h.inRoot] at hhit
    obtain ⟨hnamed, hdistinct⟩ := h.relabel hhit.live (hadds.live hhit.names.1) rfl hmoves
    refine ⟨hordered, hroot, update_dirs h, ?_, ?_⟩
    · rwa [hself]
    · rwa [hself]

end Tidy

end JexOs.JexFs
