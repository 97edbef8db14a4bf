import JexOs.Proof.JexFsMounted

/-!
# Where an entry goes

`jexfs_add_dirent` takes the first slot it meets, and behind the last entry of a block there may be room for a
header and too little for the name.
-/

namespace JexOs.JexFs

open ByteMem Loop List

section Prefix

variable {buf buf' : Mem} {pre post es : List Entry} {e : Entry} {di : Inode} {d : Mem}
  {blocks : List (List Entry)}

theorem Block.take (h : Block buf (pre ++ post)) :
    Block (fun k => if k < direntFormat.span pre then buf k else 0) pre := by
  have hinside := h.inside
  rw [Format.span_append] at hinside
  refine ⟨?_, fun k hk _ => if_neg (by omega), by omega, fun e he => h.sized e (mem_append_left _ he)⟩
  refine Format.Stored.congr ?_ fun k _ hk => if_pos (by omega)
  exact (Format.stored_append.mp h.stored).1

end Prefix

/-- What `found_off` is when `jexfs_add_dirent` comes to write an entry with `len` bytes of name. -/
def FoundOff (total : Nat) (d : Mem) (idx len off : Nat) : Prop :=
  findSlot d (inodeAt d idx) len = .ok (some off) ∨
    (findSlot d (inodeAt d idx) len = .ok none ∧ ∃ di' d',
      growDir (layout total) d idx (inodeAt d idx) = .ok (.ok (off, di'), d'))

/-- The entry for a name lies inside one block, and a scan of the block reads it back. -/
structure PlacedInside (total : Nat) (d : Mem) (idx ino : Nat) (name : Name) (ft : UInt8) : Prop where
  inside : ∀ off, FoundOff total d idx (nameLen name) off → off % 1024 + 5 + nameLen name ≤ 1024
  readBack : ∀ d', jexfsAddDirent (layout total) d idx ino name ft = .ok (.ok (), d') →
    ∃ lb, newEntry ino name ft ∈ blockEntries (readBlock d' (jexfsBmap d' (inodeAt d' idx) lb)) 205 0

/-- A name that goes to an end marker fits behind it. -/
def MarkerRoom (d : Mem) (idx len : Nat) : Prop :=
  (inodeAt d idx).size.toNat % 1024 = 0 →
    ∀ off, markerSlot len (dirEntries d (inodeAt d idx)) = some off → off + 5 + len ≤ 1024

section Slot

variable {total idx ino len : Nat} {d d' : Mem} {di : Inode} {content : Content}
  {blocks before after : List (List Entry)} {pre post es : List Entry} {e : Entry} {name : Name}
  {ft : UInt8}

theorem findSlot_laid (h : Laid d di blocks) (hlen : len ≤ 1019) : ∃ r, findSlot d di len = .ok r ∧
    Outcome di blocks 1020 (·.Reusable len) (fun lb bo => some (1024 * lb + bo))
      (fun lb bo => some (1024 * lb + bo)) none r := by
  obtain ⟨r, hr⟩ := (sweeps_slot h hlen).ends h (.inr (by decide)) (by decide)
  exact ⟨r, hr, (sweeps_slot h hlen).outcome h (by decide) hr⟩

theorem markerSlot_none (hpassed : Passed 1020 (·.Reusable len) before)
    (hes : es.any (fun e => decide (e.Reusable len)) = true) :
    markerSlot len (before ++ es :: after) = none := by
  induction before with
  | nil => rw [nil_append, markerSlot, if_pos hes]
  | cons b before ih =>
    obtain ⟨hb, hnone⟩ := hpassed b mem_cons_self
    have hany : ¬(b.any fun e => decide (e.Reusable len)) = true := by
      rw [Bool.not_eq_true]
      exact any_eq_false.mpr fun e he => by simpa using hnone e he
    rw [cons_append, markerSlot, if_neg hany, if_neg (by omega)]
    exact ih fun x hx => hpassed x (mem_cons_of_mem _ hx)

theorem markerSlot_full (h : ∀ es ∈ blocks, 1019 < direntFormat.span es) : markerSlot len blocks = none := by
  induction blocks with
  | nil => rfl
  | cons b rest ih =>
    have hb := h b mem_cons_self
    rw [markerSlot]
    split
    · rfl
    · rw [if_neg (by omega)]
      exact ih fun x hx => h x (mem_cons_of_mem _ hx)

theorem markerSlot_found {off : Nat} (h : Laid d di blocks) (hlen : len ≤ 1019)
    (hwhole : di.size.toNat % 1024 = 0) (hslot : markerSlot len blocks = some off) :
    ∃ found, findSlot d di len = .ok (some found) ∧ found % 1024 = off := by
  obtain ⟨r, hr, hout⟩ := findSlot_laid h hlen
  cases hout with
  | found before after pre post e hblocks hpassed _ he =>
    rw [hblocks, markerSlot_none hpassed] at hslot
    · cases hslot
    · exact any_eq_true.mpr ⟨e, by simp, decide_eq_true he⟩
  | marker before after es hblocks hpassed hes hroom _ =>
    rw [hblocks, markerSlot_passed _ (by decide) hpassed hes hroom] at hslot
    cases hslot
    exact ⟨_, hr, by omega⟩
  | nothing _ hfull =>
    rcases hfull with hfull | hshort
    · rw [markerSlot_full hfull] at hslot
      cases hslot
    · -- a directory of whole blocks is not shorter than they are
      rcases h.size with hsize | ⟨only, hne, rfl, hsize⟩
      · omega
      · rw [length_singleton] at hshort
        obtain ⟨e, rest, rfl⟩ := exists_cons_of_ne_nil hne
        have hpos := size_pos e
        rw [Format.span_cons] at hsize
        omega

theorem foundOff_inside {off : Nat} (h : Orderly d content) (hdir : IsDirectory d idx)
    (hlen : len ≤ 1019) (hroom : MarkerRoom d idx len) (hoff : FoundOff total d idx len off) :
    off % 1024 + 5 + len ≤ 1024 := by
  have hlaid := h.laid idx hdir.1 hdir.2
  rcases hoff with hslot | ⟨-, di', d', hgrow⟩
  · obtain ⟨r, hr, hout⟩ := findSlot_laid hlaid hlen
    rw [hslot] at hr
    cases hr
    generalize hfound : some off = found at hout
    cases hout with
    | found before after pre post e hblocks _ _ he =>
      cases hfound
      rw [hblocks] at hlaid
      have hend := hlaid.at.end_le
      have hle := he.2
      omega
    | marker before after es hblocks hpassed hes hspan hsize =>
      cases hfound
      have hmarker := markerSlot_passed after (by decide) hpassed hes hspan
      rw [← hblocks, ← hlaid.dirEntries] at hmarker
      have := hroom (by omega) _ hmarker
      omega
    | nothing _ _ => cases hfound
  · have hview : Sound d (view d idx (inodeAt d idx)) := by
      rw [view_inodeAt]
      exact h.sound
    obtain ⟨-, lb, rfl, -⟩ := growDir_ok hview hdir.1 hgrow
    omega

theorem mem_blockEntries {buf buf' : Mem} (h : Block buf (pre ++ post)) (hino : ino < 65536)
    (hname : nameLen name ≠ 0) (hroom : direntFormat.span pre + (5 + nameLen name) ≤ 1024)
    (hcell : ∀ k, k < 5 + nameLen name → buf' (direntFormat.span pre + k) = dirent ino name ft k)
    (hsame : ∀ k, k < direntFormat.span pre → buf' k = buf k) :
    newEntry ino name ft ∈ blockEntries buf' 205 0 := by
  have hlen : (newEntry ino name ft).name.length = nameLen name := newEntry_length
  have happend : Block (blit (fun k => if k < direntFormat.span pre then buf k else 0)
      (direntFormat.span pre) (5 + nameLen name) (dirent ino name ft)) (pre ++ [newEntry ino name ft]) := by
    refine h.take.append hino (fun hnil => hname ?_) (by omega) (fun k hk => ?_) fun k hk _ => ?_
    · rw [← hlen, hnil, length_nil]
    · rw [hlen] at hk
      rw [blit_add hk]
      exact dirent_newEntry hk
    · rw [hlen] at hk
      rcases hk with hlt | hge
      · exact blit_of_lt hlt
      · exact blit_of_ge hge
  have hspan : direntFormat.span (pre ++ [newEntry ino name ft]) =
      direntFormat.span pre + (5 + nameLen name) := by
    rw [Format.span_append, Format.span_cons, Format.span_nil, ← hlen]
    rfl
  obtain ⟨fuel, hfuel⟩ := blockEntries_prefix buf' happend fun k hk => by
    rw [hspan] at hk
    rcases lt_or_ge k (direntFormat.span pre) with hlt | hge
    · rw [blit_of_lt hlt, if_pos hlt]
      exact hsame k hlt
    · rw [blit_of_mem hge hk, ← hcell _ (by omega), Nat.add_sub_cancel' hge]
  rw [hfuel]
  simp

theorem addDirent_readBack (h : Orderly d content) (hdir : IsDirectory d idx) (hino : ino < 65536)
    (hname : nameLen name ≠ 0) (hlen : nameLen name ≤ 1019)
    (hrun : jexfsAddDirent (layout total) d idx ino name ft = .ok (.ok (), d')) : ∃ lb, newEntry ino name ft ∈
      blockEntries (readBlock d' (jexfsBmap d' (inodeAt d' idx) lb)) 205 0 := by
  have hlaid := h.laid idx hdir.1 hdir.2
  have hview : Sound d (view d idx (inodeAt d idx)) := by
    rw [view_inodeAt]
    exact h.sound
  simp only [jexfsAddDirent, bind_eq_ok] at hrun
  obtain ⟨di, hread, hrun⟩ := hrun
  rcases readInode_cases hread with ⟨hge, -⟩ | ⟨-, -, rfl⟩
  · exact absurd hdir.1.1 (by omega)
  split at hrun
  · cases hrun
  simp only [bind_eq_ok] at hrun
  obtain ⟨slot, hslot, hrun⟩ := hrun
  have hout := (sweeps_slot hlaid hlen).outcome hlaid (by decide) hslot
  cases slot with
  | some off =>
    generalize hoff : some off = found at hout
    cases hout with
    | found before after pre post e hblocks hpassed hpre he =>
      cases hoff
      rw [hblocks] at hlaid
      have hold := hlaid.at
      have hend := hold.end_le
      have hcover := hlaid.covers.1
      have hsize : direntFormat.size e = 5 + e.name.length := rfl
      have hle := he.2
      rw [Format.span_append, Format.span_cons] at hcover
      have hdiv : (1024 * before.length + direntFormat.span pre) / 1024 = before.length := by omega
      have hmod : (1024 * before.length + direntFormat.span pre) % 1024 = direntFormat.span pre := by omega
      obtain ⟨-, hin, rfl⟩ := writeEntry_blit h.sound hdir.1
        (by rw [hdiv]; exact hlaid.mapped_at) (by omega) hrun
      rw [hmod] at hin
      rw [hdiv, hmod]
      obtain ⟨hrec, hbmap, -, -⟩ := bmap_edit
        (a := 1024 * jexfsBmap d (inodeAt d idx) before.length + direntFormat.span pre)
        (n := 5 + nameLen name) (dirent ino name ft) h.sound hdir.1 hlaid.mapped_at (by omega)
        (by omega)
      refine ⟨before.length, ?_⟩
      rw [hrec, hbmap]
      refine mem_blockEntries hold hino hname hin (fun k hk => ?_) fun k hk => ?_
      · rw [readBlock_blit]
        exact blit_add hk
      · rw [readBlock_blit]
        exact blit_of_lt hk
    | marker before after es hblocks hpassed hes hroom hsize =>
      cases hoff
      rw [hblocks] at hlaid hsize
      obtain ⟨-, -, hlaid', -⟩ := writeEntry_append hlaid h.sound hdir.1 hino hname (by omega) hsize hrun
      refine ⟨before.length, ?_⟩
      rw [hlaid'.at.entries]
      simp
    | nothing _ _ => cases hoff
  | none =>
    simp only [bind_eq_ok] at hrun
    obtain ⟨⟨g, d₁⟩, hgrow, hrun⟩ := hrun
    cases g with
    | error e => cases hrun
    | ok p =>
      obtain ⟨off, di'⟩ := p
      obtain ⟨-, lb, rfl, hgrown⟩ := growDir_ok hview hdir.1 hgrow
      have hdir' := (hgrown.works.live idx).mpr hdir.1
      have hsound' := hgrown.works.sound
      have hrec := hgrown.record
      rw [← hrec, view_inodeAt] at hsound'
      have hsized := hgrown.sized
      rw [← hrec] at hsized hrun
      have hdiv : lb * 1024 / 1024 = lb := Nat.mul_div_cancel lb (by decide)
      have hmod : lb * 1024 % 1024 = 0 := Nat.mul_mod_left lb 1024
      have hmapped : jexfsBmap d₁ (inodeAt d₁ idx) (lb * 1024 / 1024) ≠ 0 := by
        have hview' : Sound d₁ (view d₁ idx (inodeAt d₁ idx)) := by
          rw [view_inodeAt]
          exact hsound'
        rcases writeEntry_cases hview' hdir' hrun with ⟨-, herr, -⟩ | ⟨hne, -⟩
        · cases herr
        · exact hne
      obtain ⟨-, -, rfl⟩ := writeEntry_blit hsound' hdir' hmapped (by omega) hrun
      rw [hdiv] at hmapped
      rw [hdiv, hmod]
      obtain ⟨hrec', hbmap, -, -⟩ := bmap_edit
        (a := 1024 * jexfsBmap d₁ (inodeAt d₁ idx) lb + 0) (n := 5 + nameLen name)
        (dirent ino name ft) hsound' hdir' hmapped (by omega) (by omega)
      refine ⟨lb, ?_⟩
      rw [hrec', hbmap]
      refine mem_blockEntries
        (show Block zeroBlock ([] ++ []) from Block.nil fun _ _ => rfl) hino hname
          (by rw [Format.span_nil]; omega) (fun k hk => ?_)
        fun k hk => absurd hk (Nat.not_lt_zero k)
      rw [readBlock_blit]
      exact blit_add hk

theorem Orderly.placedInside_iff (h : Orderly d content) (hdir : IsDirectory d idx)
    (hino : ino < 65536) (hname : nameLen name ≠ 0) (hlen : nameLen name ≤ 1019) :
    PlacedInside total d idx ino name ft ↔ MarkerRoom d idx (nameLen name) := by
  constructor
  · intro hplaced hwhole off hslot
    have hlaid := h.laid idx hdir.1 hdir.2
    rw [hlaid.dirEntries] at hslot
    obtain ⟨found, hfound, rfl⟩ := markerSlot_found hlaid hlen hwhole hslot
    exact hplaced.inside found (.inl hfound)
  · exact fun hroom => ⟨fun off hoff => foundOff_inside h hdir hlen hroom hoff,
      fun d' hrun => addDirent_readBack h hdir hino hname hlen hrun⟩

end Slot

section Runs

variable {total idx ino : Nat} {files : List Mkjexfs.File} {fs₀ fs : Fs} {name : Name} {ft : UInt8}

/-- An entry stays in its block exactly where the end marker leaves room for it. -/
theorem placedInside_iff_markerRoom (htotal : total ≤ 65536) (hfiles : HostFiles files)
    (hmount : Mounted total files fs₀) (hrun : Runs (Op.Even total) fs₀ fs)
    (hdir : IsDirectory fs.disk idx) (hino : ino < 65536) (hname : name ≠ []) (hlen : name.length ≤ 255) :
    PlacedInside total fs.disk idx ino name ft ↔ MarkerRoom fs.disk idx name.length := by
  obtain ⟨content, hordered⟩ := runs_ordered htotal hfiles hmount hrun
  have hnameLen := nameLen_short hlen
  have hpos := length_pos_of_ne_nil hname
  rw [hordered.orderly.placedInside_iff hdir hino (by omega) (by omega), hnameLen]

/-- After a file was renamed, a short name can be placed in the root. -/
theorem placedInside_iff_markerRoom_renamed : ∃ fs₀ fs,
    Mounted 256 [{ name := [97], data := [] }] fs₀ ∧ jexfsRename fs₀ [97] [98] = .ok (.ok 0, fs) ∧
      PlacedInside 256 fs.disk 1 3 [99] direntFile := by
  have hcompute : ((freshFs 256 [{ name := [97], data := [] }]).map fun fs =>
      (jexfsRename fs [97] [98]).map fun p => (p.1, inodeBit p.2.disk 1, (inodeAt p.2.disk 1).isDir,
        (inodeAt p.2.disk 1).size.toNat)) = some (.ok (.ok 0, true, true, 19)) := by decide
  obtain ⟨fs₀, ⟨r, fs⟩, hmount, hrename, hcompute⟩ := freshFs_call hcompute
  simp only [Prod.mk.injEq] at hcompute
  obtain ⟨rfl, hbit, hdir, hsize⟩ := hcompute
  refine ⟨fs₀, fs, hmount, hrename, ?_⟩
  refine (placedInside_iff_markerRoom (by decide) ⟨by decide, by decide⟩ hmount
    (.single ⟨.rename [97] [98], _, fun _ _ _ => .inl rfl, hrename⟩) ⟨⟨by decide, hbit⟩, hdir⟩
    (by decide) (by decide) (by decide)).mpr fun hwhole => ?_
  rw [hsize] at hwhole
  cases hwhole

def longNames : List Mkjexfs.File :=
  [97, 98, 99].map fun c => { name := List.replicate 255 c, data := [] }

/-- With a second block behind it, the room behind the last entry is taken for any name. -/
theorem not_placedInside_longNames :
    ∃ fs₀ fs, Mounted 256 longNames fs₀ ∧ jexfsCreate fs₀ [120] = .ok (.ok 5, fs) ∧
      ¬PlacedInside 256 fs.disk 1 6 (List.replicate 255 100) direntFile := by
  have hcompute : ((freshFs 256 longNames).map fun fs =>
      (jexfsCreate fs [120]).map fun p => (p.1, findSlot p.2.disk (inodeAt p.2.disk 1) 255)) =
        some (.ok (.ok 5, .ok (some 793))) := by decide +kernel
  obtain ⟨fs₀, ⟨r, fs⟩, hmount, hcreate, hcompute⟩ := freshFs_call hcompute
  simp only [Prod.mk.injEq] at hcompute
  obtain ⟨rfl, hslot⟩ := hcompute
  refine ⟨fs₀, fs, hmount, hcreate, fun h => ?_⟩
  have hlen : nameLen (List.replicate 255 100) = 255 := by rw [nameLen, length_replicate]
  have hinside := h.inside 793 (.inl (by rw [hlen]; exact hslot))
  omega

end Runs

end JexOs.JexFs
