import JexOs.Proof.JexFsNames
import JexOs.ShellLs
import Mathlib.Data.List.TakeWhile

/-!
# What `ls` shows and what can be opened

`ls` looks at the entries of the first eight blocks up to the first deleted one; a look-up goes past deleted
entries and past any number of full blocks.
-/

namespace JexOs.Shell

open ByteMem JexFs Loop Option

def reached (es : List Entry) : List Entry := es.takeWhile fun e => decide (e.ino ≠ 0)

/-- Behind the entries of the block one byte is left, and two are read there. -/
def Overreads (es : List Entry) : Prop := (∀ e ∈ es, e.ino ≠ 0) ∧ direntFormat.span es = 1023

def dotNames : List Name := [[46], [46, 46]]

section Walk

variable {sb : Superblock} {d buf : Mem} {f : LsFlags} {es pre post : List Entry} {e : Entry}

section

variable (h : Block buf (pre ++ e :: post))

include h

theorem isDots_entry : isDots buf (direntFormat.span pre) = decide (e.name ∈ dotNames) := by
  have hbyte : ∀ k c, e.name[k]? = some c → buf (direntFormat.span pre + 5 + k) = c := by
    intro k c hk
    obtain ⟨hlt, rfl⟩ := List.getElem?_eq_some_iff.mp hk
    exact h.name hlt
  unfold isDots dotNames
  rw [h.length]
  cases hname : e.name with
  | nil => simp
  | cons c cs =>
    have hfirst := hbyte 0 c (by rw [hname]; rfl)
    cases cs with
    | nil => simp [hfirst, beq_eq_decide]
    | cons c' cs =>
      have hsecond := hbyte 1 c' (by rw [hname]; rfl)
      cases cs with
      | nil => simp [hfirst, hsecond, beq_eq_decide]
      | cons _ _ => simp

theorem lsEntry_name {item : LsItem}
    (hrun : lsEntry sb d f buf (direntFormat.span pre) = .ok item) : item.name? = some e.name := by
  have hentry := congrArg Entry.name h.entryAt
  have hend := h.end_le
  unfold entryAt at hentry
  dsimp only at hentry
  unfold lsEntry at hrun
  rw [h.length] at hentry hrun
  dsimp only at hrun
  rw [hentry, if_neg (by omega)] at hrun
  split at hrun
  · cases hrun
    rfl
  · simp only [bind_eq_ok] at hrun
    obtain ⟨inode, -, hret⟩ := hrun
    cases hret
    rfl

theorem lsEntry_short (hshort : f.longFmt = false) :
    ∃ item, lsEntry sb d f buf (direntFormat.span pre) = .ok item := by
  have hend := h.end_le
  unfold lsEntry
  rw [h.length, if_neg (by omega), hshort]
  exact ⟨_, rfl⟩

theorem lsBlock_entry (fuel : Nat) :
    lsBlock sb d f buf (fuel + 1) (direntFormat.span pre) = if e.ino = 0 then .ok []
      else if (!f.showAll && decide (e.name ∈ dotNames)) = true then
        lsBlock sb d f buf fuel (direntFormat.span (pre ++ [e]))
      else do
        let item ← lsEntry sb d f buf (direntFormat.span pre)
        let items ← lsBlock sb d f buf fuel (direntFormat.span (pre ++ [e]))
        return item :: items := by
  have hend := h.end_le
  have hspan : direntFormat.span (pre ++ [e]) = direntFormat.span pre + (5 + e.name.length) := by
    rw [Format.span_append, Format.span_cons, Format.span_nil]
    rfl
  have hesz : (5 + e.name.length) % 65536 = 5 + e.name.length := Nat.mod_eq_of_lt (by omega)
  rw [lsBlock, if_neg (by omega), if_neg (by omega), h.ino, h.length, isDots_entry h, hesz, hspan]
  by_cases hino : e.ino = 0
  · rw [if_pos hino, if_pos hino]
  · rw [if_neg hino, if_neg hino, if_neg (by omega), if_neg (by omega)]

end

theorem lsBlock_end (h : Block buf es) (fuel : Nat) : lsBlock sb d f buf (fuel + 1) (direntFormat.span es) =
      if direntFormat.span es = 1023 then .error .outOfBounds else .ok [] := by
  rw [lsBlock]
  by_cases hfull : 1024 ≤ direntFormat.span es
  · rw [if_pos hfull, if_neg (by omega)]
  · rw [if_neg hfull]
    by_cases hrest : direntFormat.span es = 1023
    · rw [if_pos (by omega), if_pos hrest]
    · have hzero : load16 buf (direntFormat.span es) = 0 := by
        refine load16_byteOf (by decide) fun k hk => ?_
        rw [h.clear _ (by omega) (by omega)]
        simp [byteOf]
      rw [if_neg (by omega), if_pos hzero, if_neg hrest]

theorem lsBlock_names (h : Block buf es) {items : List LsItem}
    (hrun : lsBlock sb d f buf 206 0 = .ok items) : items.filterMap LsItem.name? =
      ((reached es).filter fun e => !(!f.showAll && decide (e.name ∈ dotNames))).map Entry.name ∧
        ¬Overreads es := by
  have hall : ∀ (post pre : List Entry) (fuel : Nat) (items : List LsItem), es = pre ++ post →
      1024 < direntFormat.span pre + 5 * fuel →
      lsBlock sb d f buf fuel (direntFormat.span pre) = .ok items →
      items.filterMap LsItem.name? =
        ((reached post).filter fun e => !(!f.showAll && decide (e.name ∈ dotNames))).map Entry.name ∧
        ¬((∀ e ∈ post, e.ino ≠ 0) ∧ direntFormat.span es = 1023) := by
    intro post
    induction post with
    | nil =>
      intro pre fuel items hes hfuel hrun
      rw [List.append_nil] at hes
      subst hes
      have hinside := h.inside
      cases fuel with
      | zero => omega
      | succ fuel =>
        rw [lsBlock_end h] at hrun
        split at hrun
        · cases hrun
        · cases hrun
          exact ⟨rfl, fun hover => absurd hover.2 ‹_›⟩
    | cons e post ih =>
      intro pre fuel items hes hfuel hrun
      have hspan : direntFormat.span (pre ++ [e]) = direntFormat.span pre + 5 + e.name.length := by
        rw [Format.span_append, Format.span_cons, Format.span_nil]
        exact (Nat.add_assoc _ 5 _).symm
      have h' := hes ▸ h
      have hend := h'.end_le
      cases fuel with
      | zero => omega
      | succ fuel =>
        rw [lsBlock_entry h'] at hrun
        by_cases hino : e.ino = 0
        · rw [if_pos hino] at hrun
          cases hrun
          refine ⟨?_, fun hover => hover.1 e List.mem_cons_self hino⟩
          rw [reached, List.takeWhile_cons_of_neg (by simpa using hino)]
          rfl
        · have hnext := fun items hrun =>
            ih (pre ++ [e]) fuel items (by rw [hes, List.append_assoc]; rfl) (by omega) hrun
          have hcons : reached (e :: post) = e :: reached post :=
            List.takeWhile_cons_of_pos (decide_eq_true hino)
          rw [if_neg hino] at hrun
          rw [hcons]
          split at hrun
          · rename_i hhidden
            obtain ⟨hnames, hover⟩ := hnext items hrun
            refine ⟨?_, fun ⟨hused, hs⟩ => hover ⟨fun x hx => hused x (List.mem_cons_of_mem _ hx), hs⟩⟩
            rw [List.filter_cons_of_neg (by simpa using hhidden), hnames]
          · rename_i hshown
            simp only [bind_eq_ok] at hrun
            obtain ⟨item, hitem, rest, hrest, hret⟩ := hrun
            cases hret
            obtain ⟨hnames, hover⟩ := hnext rest hrest
            refine ⟨?_, fun ⟨hused, hs⟩ => hover ⟨fun x hx => hused x (List.mem_cons_of_mem _ hx), hs⟩⟩
            rw [List.filterMap_cons_some (lsEntry_name h' hitem), hnames,
              List.filter_cons_of_pos (by rw [eq_false_of_ne_true hshown]; rfl), List.map_cons]
  exact hall es [] 206 items rfl (by decide) hrun

theorem lsBlock_short (h : Block buf es) (hshort : f.longFmt = false) (hover : ¬Overreads es) :
    ∃ items, lsBlock sb d f buf 206 0 = .ok items := by
  have hall : ∀ (post pre : List Entry) (fuel : Nat), es = pre ++ post →
      1024 < direntFormat.span pre + 5 * fuel →
      ¬((∀ e ∈ post, e.ino ≠ 0) ∧ direntFormat.span es = 1023) →
      ∃ items, lsBlock sb d f buf fuel (direntFormat.span pre) = .ok items := by
    intro post
    induction post with
    | nil =>
      intro pre fuel hes hfuel hover
      rw [List.append_nil] at hes
      subst hes
      have hinside := h.inside
      cases fuel with
      | zero => omega
      | succ fuel =>
        rw [lsBlock_end h, if_neg fun hs => hover ⟨fun _ he => absurd he List.not_mem_nil, hs⟩]
        exact ⟨[], rfl⟩
    | cons e post ih =>
      intro pre fuel hes hfuel hover
      have hspan : direntFormat.span (pre ++ [e]) = direntFormat.span pre + 5 + e.name.length := by
        rw [Format.span_append, Format.span_cons, Format.span_nil]
        exact (Nat.add_assoc _ 5 _).symm
      have h' := hes ▸ h
      have hend := h'.end_le
      cases fuel with
      | zero => omega
      | succ fuel =>
        rw [lsBlock_entry h']
        by_cases hino : e.ino = 0
        · rw [if_pos hino]
          exact ⟨[], rfl⟩
        · obtain ⟨items, hitems⟩ := ih (pre ++ [e]) fuel (by rw [hes, List.append_assoc]; rfl)
            (by omega) fun ⟨hused, hs⟩ => hover ⟨fun x hx => by
              rcases List.mem_cons.mp hx with rfl | hx
              · exact hino
              · exact hused x hx, hs⟩
          obtain ⟨item, hitem⟩ := lsEntry_short (d := d) h' hshort
          rw [if_neg hino, hitems, hitem]
          split
          · exact ⟨_, rfl⟩
          · exact ⟨_, rfl⟩
  exact hall es [] 206 rfl (by decide) hover

end Walk

def Listed (blocks : List (List Entry)) (name : Name) : Prop :=
  ∃ es ∈ blocks.take 8, ∃ e ∈ reached es, e.name = name

section Blocks

variable {sb : Superblock} {d : Mem} {f : LsFlags} {di : Inode} {blocks : List (List Entry)}

theorem bmap_direct (b : Fin 8) : jexfsBmap d di b = (di.directBlocks b).toNat := by
  rw [jexfsBmap, dif_pos b.isLt]

theorem directBlocks_zero (h : Laid d di blocks)
    (b : Fin 8) : di.directBlocks b = 0 ↔ blocks[(b : Nat)]? = none := by
  have hmapped := h.mapped b
  rw [bmap_direct] at hmapped
  rw [List.getElem?_eq_none_iff]
  refine ⟨fun hzero => Nat.le_of_not_lt fun hlt => hmapped.mpr hlt (by rw [hzero]; rfl),
    fun hle => by_contra fun hne => ?_⟩
  exact absurd (hmapped.mp fun hzero => hne (UInt16.toNat_inj.mp hzero)) (by omega)

theorem lsBlocks_names (h : Laid d di blocks) (bs : List (Fin 8)) {items : List LsItem}
    (hrun : lsBlocks sb d f di bs = .ok items) :
    (∀ name, name ∉ dotNames → (name ∈ items.filterMap LsItem.name? ↔
      ∃ b ∈ bs, ∃ es, blocks[(b : Nat)]? = some es ∧ ∃ e ∈ reached es, e.name = name)) ∧
      ∀ b ∈ bs, ∀ es, blocks[(b : Nat)]? = some es → ¬Overreads es := by
  induction bs generalizing items with
  | nil =>
    cases hrun
    exact ⟨fun name _ => by simp, fun b hb => absurd hb List.not_mem_nil⟩
  | cons b bs ih =>
    rw [lsBlocks] at hrun
    split at hrun
    · rename_i hzero
      have hnone := (directBlocks_zero h b).mp hzero
      obtain ⟨hnames, hovers⟩ := ih hrun
      refine ⟨fun name hdots => ?_, fun b' hb' es hes => ?_⟩
      · rw [hnames name hdots]
        simp [hnone]
      · rcases List.mem_cons.mp hb' with rfl | hb'
        · rw [hnone] at hes
          cases hes
        · exact hovers b' hb' es hes
    · rename_i hne
      simp only [bind_eq_ok] at hrun
      obtain ⟨first, hfirst, rest, hrest, hret⟩ := hrun
      cases hret
      obtain ⟨es, hes⟩ := ne_none_iff_exists'.mp fun hnone =>
        hne ((directBlocks_zero h b).mpr hnone)
      have hblock := h.block b es hes
      rw [bmap_direct] at hblock
      obtain ⟨hnamesFirst, hover⟩ := lsBlock_names hblock hfirst
      obtain ⟨hnames, hovers⟩ := ih hrest
      refine ⟨fun name hdots => ?_, fun b' hb' es' hes' => ?_⟩
      · have hmem : name ∈ first.filterMap LsItem.name? ↔ ∃ e ∈ reached es, e.name = name := by
          rw [hnamesFirst, List.mem_map]
          refine ⟨fun ⟨e, he, heq⟩ => ⟨e, (List.mem_filter.mp he).1, heq⟩, fun ⟨e, he, heq⟩ => ?_⟩
          refine ⟨e, List.mem_filter.mpr ⟨he, ?_⟩, heq⟩
          rw [heq, decide_eq_false hdots, Bool.and_false, Bool.not_false]
        rw [List.filterMap_append, List.mem_append, hmem, hnames name hdots]
        simp [hes]
      · rcases List.mem_cons.mp hb' with rfl | hb'
        · rw [hes] at hes'
          cases hes'
          exact hover
        · exact hovers b' hb' es' hes'

theorem lsBlocks_short (h : Laid d di blocks) (hshort : f.longFmt = false) (bs : List (Fin 8))
    (hovers : ∀ b ∈ bs, ∀ es, blocks[(b : Nat)]? = some es → ¬Overreads es) :
    ∃ items, lsBlocks sb d f di bs = .ok items := by
  induction bs with
  | nil => exact ⟨[], rfl⟩
  | cons b bs ih =>
    obtain ⟨rest, hrest⟩ := ih fun b' hb' => hovers b' (List.mem_cons_of_mem _ hb')
    rw [lsBlocks]
    split
    · exact ⟨rest, hrest⟩
    · rename_i hne
      obtain ⟨es, hes⟩ := ne_none_iff_exists'.mp fun hnone =>
        hne ((directBlocks_zero h b).mpr hnone)
      have hblock := h.block b es hes
      rw [bmap_direct] at hblock
      obtain ⟨items, hitems⟩ := lsBlock_short (d := d) hblock hshort (hovers b List.mem_cons_self es hes)
      rw [hitems, hrest]
      exact ⟨_, rfl⟩

theorem mem_take_eight {es : List Entry} :
    es ∈ blocks.take 8 ↔ ∃ b ∈ List.finRange 8, blocks[(b : Nat)]? = some es := by
  rw [List.mem_take_iff_getElem]
  constructor
  · rintro ⟨k, hk, rfl⟩
    have hk' := Nat.lt_min.mp hk
    exact ⟨⟨k, hk'.1⟩, List.mem_finRange _, List.getElem?_eq_getElem hk'.2⟩
  · rintro ⟨b, -, hb⟩
    obtain ⟨hlt, rfl⟩ := List.getElem?_eq_some_iff.mp hb
    exact ⟨b, Nat.lt_min.mpr ⟨b.isLt, hlt⟩, rfl⟩

end Blocks

/-- A name as it can stand in a directory and be looked up there. -/
def EntryName (name : Name) : Prop := name ≠ [] ∧ name.head? ≠ some slash ∧ name.length < 65536

/-- `ls` of the working directory, in whatever format, shows the names that can be opened there. -/
structure LsAgrees (fs : Fs) : Prop where
  lists : ∃ items, doLs fs [] = .ok items
  agrees : ∀ arg items,
    (lsFlags arg.length { showAll := false, longFmt := false, human := false } arg).2 = [] →
      doLs fs arg = .ok items → ∀ name, name ∉ dotNames →
        (name ∈ items.filterMap LsItem.name? ↔ EntryName name ∧ ∃ n, jexfsOpen fs name = .ok (.ok n))

/-- `ls` gets to an entry of a name just where a search does and the name is no path, and no block is
read past its end. -/
structure LsReaches (fs : Fs) : Prop where
  rests : ∀ es ∈ fs.entries.take 8, ¬Overreads es
  names : ∀ e ∈ live fs.entries, e.name ∉ dotNames → (Listed fs.entries e.name ↔
    e.name.head? ≠ some slash ∧ ∃ x ∈ visible fs.entries, x.ino ≠ 0 ∧ x.name = e.name)

section Call

variable {total : Nat} {fs : Fs} {content : Content} {f : LsFlags} {arg name : Name}

section

variable (h : Ordered total fs content)

include h

theorem doLs_cwd (hflags : lsFlags arg.length { showAll := false, longFmt := false, human := false }
      arg = (f, [])) :
    doLs fs arg = lsBlocks fs.sb fs.disk f (inodeAt fs.disk fs.cwd) (List.finRange 8) := by
  have hnot : ¬(!(inodeAt fs.disk fs.cwd).isDir) = true := by
    rw [h.cwd.2]
    decide
  unfold doLs
  rw [hflags]
  dsimp only
  rw [if_pos rfl, pure_bind]
  dsimp only
  rw [h.readInode h.cwd]
  exact if_neg hnot

omit h in
theorem listed_live {blocks : List (List Entry)} (h : Listed blocks name) :
    ∃ e ∈ live blocks, e.name = name := by
  obtain ⟨es, hes, e, he, heq⟩ := h
  have hused := List.mem_takeWhile_imp he
  refine ⟨e, mem_live.mpr ⟨List.mem_flatten.mpr ⟨es, List.mem_of_mem_take hes, ?_⟩, ?_⟩, heq⟩
  · exact ( List.takeWhile_prefix _).subset he
  · simpa using hused

theorem open_iff (hname : EntryName name) :
    (∃ n, jexfsOpen fs name = .ok (.ok n)) ↔ ∃ x ∈ visible fs.entries, x.ino ≠ 0 ∧ x.name = name := by
  have htake : name.take (nameLen name) = name := by
    rw [nameLen, Nat.mod_eq_of_lt hname.2.2, List.take_length]
  rw [open_plain hname.1 hname.2.1, h.entries]
  constructor
  · rintro ⟨n, hn⟩
    obtain ⟨e, hlookup, -⟩ := (h.findEntry_iff h.cwd).mp hn
    have hmem := List.mem_of_find?_eq_some hlookup
    have hnames := (lookup_live hlookup).2
    exact ⟨e, hmem, hnames.1, hnames.2.trans htake⟩
  · rintro ⟨x, hx, hino, heq⟩
    cases hlookup : lookup (content fs.cwd) name with
    | none =>
      have hnone := List.find?_eq_none.mp hlookup x hx
      exact absurd (decide_eq_true (⟨hino, heq.trans htake.symm⟩ : x.Names name)) hnone
    | some e => exact ⟨_, h.findEntry_lookup h.cwd hlookup⟩

theorem entryName_live {e : Entry} (he : e ∈ live fs.entries)
    (hplain : e.name.head? ≠ some slash) : EntryName e.name := by
  rw [h.entries] at he
  obtain ⟨es, hes, hmem⟩ := List.mem_flatten.mp (mem_live.mp he).1
  obtain ⟨lb, hlb⟩ := List.mem_iff_getElem?.mp hes
  have hblock := (h.orderly.laid fs.cwd h.cwd.1 h.cwd.2).block lb es hlb
  obtain ⟨pre, post, rfl⟩ := List.append_of_mem hmem
  have hend := hblock.end_le
  exact ⟨(hblock.sized e hmem).2, hplain, by omega⟩

theorem lsAgrees_of_ordered : LsAgrees fs ↔ LsReaches fs := by
  have hlaid := h.orderly.laid fs.cwd h.cwd.1 h.cwd.2
  rw [← h.entries] at hlaid
  have hlisted : ∀ n : Name, (∃ b ∈ List.finRange 8, ∃ es, fs.entries[(b : Nat)]? = some es ∧
      ∃ e ∈ reached es, e.name = n) ↔ Listed fs.entries n := by
    intro n
    constructor
    · rintro ⟨b, hb, es, hes, he⟩
      exact ⟨es, mem_take_eight.mpr ⟨b, hb, hes⟩, he⟩
    · rintro ⟨es, hes, he⟩
      obtain ⟨b, hb, hes⟩ := mem_take_eight.mp hes
      exact ⟨b, hb, es, hes, he⟩
  constructor
  · intro hagrees
    obtain ⟨items, hitems⟩ := hagrees.lists
    have hrun := hitems
    rw [doLs_cwd h rfl] at hrun
    obtain ⟨hnames, hovers⟩ := lsBlocks_names hlaid _ hrun
    refine ⟨fun es hes => ?_, fun e he hdots => ?_⟩
    · obtain ⟨b, hb, hes⟩ := mem_take_eight.mp hes
      exact hovers b hb es hes
    · have hagree := hagrees.agrees [] items rfl hitems e.name hdots
      rw [hnames e.name hdots, hlisted] at hagree
      rw [hagree]
      constructor
      · rintro ⟨hname, hopen⟩
        exact ⟨hname.2.1, (open_iff h hname).mp hopen⟩
      · rintro ⟨hplain, hx⟩
        have hname := entryName_live h he hplain
        exact ⟨hname, (open_iff h hname).mpr hx⟩
  · intro hreaches
    refine ⟨?_, fun arg items hpath hitems name hdots => ?_⟩
    · rw [doLs_cwd h rfl]
      refine lsBlocks_short hlaid rfl _ fun b hb es hes => ?_
      exact hreaches.rests es (mem_take_eight.mpr ⟨b, hb, hes⟩)
    · rw [doLs_cwd h (Prod.ext rfl hpath)] at hitems
      obtain ⟨hnames, -⟩ := lsBlocks_names hlaid _ hitems
      rw [hnames name hdots, hlisted]
      constructor
      · intro hlist
        obtain ⟨e, he, rfl⟩ := listed_live hlist
        obtain ⟨hplain, hx⟩ := (hreaches.names e he hdots).mp hlist
        have hname := entryName_live h he hplain
        exact ⟨hname, (open_iff h hname).mpr hx⟩
      · rintro ⟨hname, hopen⟩
        obtain ⟨x, hx, hino, rfl⟩ := (open_iff h hname).mp hopen
        have hlive := mem_live.mpr ⟨mem_of_visible hx, hino⟩
        exact (hreaches.names x hlive hdots).mpr ⟨hname.2.1, x, hx, hino, rfl⟩

end

/-- `ls` agrees with look-ups exactly where it gets to the same entries. -/
theorem lsAgrees_iff {files : List Mkjexfs.File} {fs₀ : Fs} (htotal : total ≤ 65536)
    (hfiles : HostFiles files) (hmount : Mounted total files fs₀)
    (hreached : Runs (Op.Even total) fs₀ fs) : LsAgrees fs ↔ LsReaches fs := by
  obtain ⟨content, hordered⟩ := runs_ordered htotal hfiles hmount hreached
  exact lsAgrees_of_ordered hordered

/-- On a fresh image with the file `a` the two agree. -/
theorem lsAgrees_iff_fresh : ∃ fs, Mounted 256 [{ name := [97], data := [1, 2] }] fs ∧ LsAgrees fs := by
  have hcompute : ((freshFs 256 [{ name := [97], data := [1, 2] }]).map fun fs => fs.entries) =
      some [[{ ino := 1, fileType := direntDir, name := [46] },
        { ino := 1, fileType := direntDir, name := [46, 46] },
        { ino := 2, fileType := direntFile, name := [97] }]] := by decide +kernel
  obtain ⟨fs, hfresh, hentries⟩ := map_eq_some_iff.mp hcompute
  have hmount := freshFs_mounted hfresh
  refine ⟨fs, hmount, (lsAgrees_iff (by decide) ⟨by decide, by decide⟩ hmount .refl).mpr ⟨?_, ?_⟩⟩
  · rw [hentries]
    intro es hes hover
    cases List.mem_singleton.mp hes
    exact absurd hover.2 (by decide)
  · rw [hentries]
    intro e he hdots
    have hname : e.name = [97] := by
      have hall : ∀ e ∈ live [[({ ino := 1, fileType := direntDir, name := [46] } : Entry),
          { ino := 1, fileType := direntDir, name := [46, 46] },
          { ino := 2, fileType := direntFile, name := [97] }]], e.name ∉ dotNames → e.name = [97] := by
        decide
      exact hall e he hdots
    rw [hname]
    refine ⟨fun _ => ⟨by decide, ?_⟩, fun _ => ?_⟩
    · exact ⟨{ ino := 2, fileType := direntFile, name := [97] }, by decide, by decide, rfl⟩
    · exact ⟨_, List.mem_singleton.mpr rfl, { ino := 2, fileType := direntFile, name := [97] }, by decide, rfl⟩

/-- A new file goes to the second block of a fresh root, where `ls` gets to it and a search does not. -/
theorem not_lsAgrees_create : ∃ fs₀ fs, Mounted 256 [] fs₀ ∧ jexfsCreate fs₀ [120] = .ok (.ok 2, fs) ∧
    ¬LsAgrees fs := by
  have hcompute : ((freshFs 256 []).map fun fs => (jexfsCreate fs [120]).map fun p =>
      (p.1, decide (doLs p.2 [] = .ok [.short [120] false]) &&
        decide (jexfsOpen p.2 [120] = .ok (.error .enoent)))) = some (.ok (.ok 2, true)) := by
    decide +kernel
  obtain ⟨fs₀, ⟨r, fs⟩, hmount, hcreate, hcompute⟩ := freshFs_call hcompute
  simp only [Prod.mk.injEq] at hcompute
  obtain ⟨rfl, hchecks⟩ := hcompute
  simp only [Bool.and_eq_true, decide_eq_true_eq] at hchecks
  obtain ⟨hitems, hopen⟩ := hchecks
  refine ⟨fs₀, fs, hmount, hcreate, fun h => ?_⟩
  obtain ⟨-, n, hn⟩ := (h.agrees [] _ rfl hitems [120] (by decide)).mp (by decide)
  rw [hopen] at hn
  cases hn

end Call

end JexOs.Shell
