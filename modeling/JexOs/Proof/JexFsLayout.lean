import JexOs.Lib.Packed
import JexOs.Proof.JexFsScan

/-!
# The layout of a directory

The blocks of a directory hold entries one behind another, and zeros behind the last one.
-/

namespace JexOs.JexFs

open ByteMem Loop List

/-- A directory entry, deleted where the inode is 0. -/
structure Entry where
  ino : Nat
  fileType : UInt8
  name : Name
  deriving Repr, DecidableEq

def direntFormat : Format Entry UInt8 where
  size e := 5 + e.name.length
  cell e := dirent e.ino e.name e.fileType

def entryAt (buf : Mem) (bo : Nat) : Entry :=
  { ino := load16 buf bo
    fileType := buf (bo + 4)
    name := (List.range (load16 buf (bo + 2))).map fun k => buf (bo + 5 + k) }

def blockEntries (buf : Mem) : Nat → Nat → List Entry
  | 0, _ => []
  | fuel + 1, bo =>
    if bo + 5 ≤ 1024 ∧ ¬(load16 buf bo = 0 ∧ load16 buf (bo + 2) = 0) then
      entryAt buf bo :: blockEntries buf fuel (bo + 5 + load16 buf (bo + 2))
    else []

def dirEntries (d : Mem) (di : Inode) : List (List Entry) :=
  (List.range ((di.size.toNat + 1023) / 1024)).map fun lb =>
    blockEntries (readBlock d (jexfsBmap d di lb)) 205 0

structure Block (buf : Mem) (es : List Entry) : Prop where
  stored : direntFormat.Stored buf 0 es
  clear : ∀ k, direntFormat.span es ≤ k → k < 1024 → buf k = 0
  inside : direntFormat.span es ≤ 1024
  sized : ∀ e ∈ es, e.ino < 65536 ∧ e.name ≠ []

/-- The directory holds these entries: its size is that of its blocks, or that of the entries of its
only block. -/
structure Laid (d : Mem) (di : Inode) (blocks : List (List Entry)) : Prop where
  mapped : ∀ lb, jexfsBmap d di lb ≠ 0 ↔ lb < blocks.length
  block : ∀ lb es, blocks[lb]? = some es → Block (readBlock d (jexfsBmap d di lb)) es
  size : di.size.toNat = 1024 * blocks.length ∨
    ∃ es, es ≠ [] ∧ blocks = [es] ∧ di.size.toNat = direntFormat.span es

section Block

variable {buf buf' : Mem} {es pre post : List Entry} {e e' : Entry}

theorem size_pos (e : Entry) : 5 ≤ direntFormat.size e := Nat.le_add_right 5 _

section

variable (h : Block buf (pre ++ e :: post))

include h

theorem Block.middle {k : Nat} (hk : k < 5 + e.name.length) :
    buf (direntFormat.span pre + k) = dirent e.ino e.name e.fileType k := by
  have hcell := h.stored.middle hk
  rwa [Nat.zero_add] at hcell

theorem Block.end_le : direntFormat.span pre + (5 + e.name.length) ≤ 1024 := by
  have hinside := h.inside
  rw [Format.span_append, Format.span_cons] at hinside
  have hsize : direntFormat.size e = 5 + e.name.length := rfl
  omega

theorem Block.nameLen : nameLen e.name = e.name.length :=
  Nat.mod_eq_of_lt (by have := h.end_le; omega)

theorem Block.ino : load16 buf (direntFormat.span pre) = e.ino := by
  refine load16_byteOf (h.sized e (by simp)).1 fun k hk => ?_
  rw [h.middle (by omega), dirent, if_pos hk]

theorem Block.length : load16 buf (direntFormat.span pre + 2) = e.name.length := by
  have hle := h.end_le
  refine load16_byteOf (by omega) fun k hk => ?_
  rw [Nat.add_assoc, h.middle (by omega), dirent, if_neg (by omega), if_pos (by omega),
    h.nameLen, Nat.add_sub_cancel_left]

theorem Block.fileType : buf (direntFormat.span pre + 4) = e.fileType := by
  rw [h.middle (by omega), dirent, if_neg (by decide), if_neg (by decide), if_pos rfl]

theorem Block.name {k : Nat} (hk : k < e.name.length) : buf (direntFormat.span pre + 5 + k) = e.name[k] := by
  rw [Nat.add_assoc, h.middle (by omega), dirent, if_neg (by omega), if_neg (by omega),
    if_neg (by omega), Nat.add_sub_cancel_left]
  exact getD_eq_getElem _ _ hk

theorem Block.not_marker :
    ¬(load16 buf (direntFormat.span pre) = 0 ∧ load16 buf (direntFormat.span pre + 2) = 0) := by
  rintro ⟨-, hzero⟩
  rw [h.length] at hzero
  exact (h.sized e (by simp)).2 (eq_nil_of_length_eq_zero hzero)

omit h in
theorem Block.marker (h : Block buf es) (hroom : direntFormat.span es ≤ 1020) :
    load16 buf (direntFormat.span es) = 0 ∧ load16 buf (direntFormat.span es + 2) = 0 := by
  constructor
  · refine load16_byteOf (by decide) fun k hk => ?_
    rw [h.clear _ (by omega) (by omega)]
    simp [byteOf]
  · refine load16_byteOf (by decide) fun k hk => ?_
    rw [h.clear _ (by omega) (by omega)]
    simp [byteOf]

theorem Block.entryAt : entryAt buf (direntFormat.span pre) = e := by
  unfold JexFs.entryAt
  rw [h.ino, h.length, h.fileType]
  obtain ⟨ino, fileType, name⟩ := e
  congr 1
  refine ext_getElem (by simp) fun k hk hk' => ?_
  simp only [getElem_map, getElem_range]
  exact h.name hk'

omit h in
theorem blockEntries_prefix (buf' : Mem) (h : Block buf es)
    (hsame : ∀ k, k < direntFormat.span es → buf' k = buf k) :
    ∃ fuel, blockEntries buf' 205 0 = es ++ blockEntries buf' fuel (direntFormat.span es) := by
  have hsplit : ∀ (post pre : List Entry) (fuel : Nat), es = pre ++ post →
      1024 < direntFormat.span pre + 5 * fuel →
        ∃ left, blockEntries buf' fuel (direntFormat.span pre) =
          post ++ blockEntries buf' left (direntFormat.span es) := by
    intro post
    induction post with
    | nil =>
      intro pre fuel hes _
      rw [append_nil] at hes
      exact ⟨fuel, by rw [hes, nil_append]⟩
    | cons e post ih =>
      intro pre fuel hes hfuel
      rw [hes] at h
      have hle := h.end_le
      have hspan : direntFormat.span (pre ++ [e]) = direntFormat.span pre + 5 + e.name.length := by
        rw [Format.span_append, Format.span_cons, Format.span_nil]
        exact (Nat.add_assoc _ 5 _).symm
      have hcell : ∀ k, k < 5 + e.name.length →
          buf' (direntFormat.span pre + k) = buf (direntFormat.span pre + k) := by
        intro k hk
        refine hsame _ ?_
        have hsize : direntFormat.size e = 5 + e.name.length := rfl
        rw [hes, Format.span_append, Format.span_cons]
        omega
      have hino : load16 buf' (direntFormat.span pre) = load16 buf (direntFormat.span pre) :=
        load16_congr fun k hk hk' => by
          rw [show k = direntFormat.span pre + (k - direntFormat.span pre) by omega]
          exact hcell _ (by omega)
      have hlen : load16 buf' (direntFormat.span pre + 2) = load16 buf (direntFormat.span pre + 2) :=
        load16_congr fun k hk hk' => by
          rw [show k = direntFormat.span pre + (k - direntFormat.span pre) by omega]
          exact hcell _ (by omega)
      have hentry : entryAt buf' (direntFormat.span pre) = e := by
        rw [← h.entryAt]
        unfold entryAt
        rw [hino, hlen, hcell 4 (by omega), h.length]
        congr 1
        refine map_congr_left fun k hk => ?_
        rw [Nat.add_assoc]
        exact hcell _ (by have := mem_range.mp hk; omega)
      cases fuel with
      | zero => omega
      | succ fuel =>
        obtain ⟨left, hleft⟩ := ih (pre ++ [e]) fuel (by simp [hes]) (by omega)
        rw [hspan] at hleft
        refine ⟨left, ?_⟩
        rw [blockEntries, hino, hlen, if_pos ⟨by omega, h.not_marker⟩, hentry, h.length, hleft, cons_append]
  exact hsplit es [] 205 rfl (by decide)

omit h in
theorem Block.entries (h : Block buf es) : blockEntries buf 205 0 = es := by
  obtain ⟨fuel, hfuel⟩ := blockEntries_prefix _ h fun _ _ => rfl
  have hrest : blockEntries buf fuel (direntFormat.span es) = [] := by
    cases fuel with
    | zero => rfl
    | succ fuel => exact if_neg fun ⟨hin, hmark⟩ => hmark (h.marker (by omega))
  rw [hfuel, hrest, append_nil]

omit h in
theorem Block.congr (h : Block buf es) (hsame : ∀ k, k < 1024 → buf' k = buf k) : Block buf' es :=
  { stored := h.stored.congr fun k _ hk => hsame k (by have := h.inside; omega)
    clear := fun k hk hk' => (hsame k hk').trans (h.clear k hk hk')
    inside := h.inside
    sized := h.sized }

theorem Block.replace (hino : e'.ino < 65536) (hname : e'.name.length = e.name.length)
    (hnew : ∀ k, k < 5 + e.name.length →
      buf' (direntFormat.span pre + k) = dirent e'.ino e'.name e'.fileType k)
    (hsame : ∀ k, k < direntFormat.span pre ∨ direntFormat.span pre + (5 + e.name.length) ≤ k →
      k < 1024 → buf' k = buf k) : Block buf' (pre ++ e' :: post) := by
  have hsize : direntFormat.size e' = direntFormat.size e := congrArg (5 + ·) hname
  have hsize' : direntFormat.size e = 5 + e.name.length := rfl
  have hspan : direntFormat.span (pre ++ e' :: post) = direntFormat.span (pre ++ e :: post) := by
    simp only [Format.span_append, Format.span_cons, hsize]
  have hle := h.inside
  refine ⟨?_, fun k hk hk' => ?_, hspan ▸ h.inside, fun x hx => ?_⟩
  · -- only what lies in the block is compared
    have hstored : direntFormat.Stored (fun k => if k < 1024 then buf' k else buf k) 0
        (pre ++ e' :: post) := by
      have hend := h.end_le
      refine h.stored.replace hsize (fun k hk => ?_) fun k _ hk => ?_
      · rw [hsize, hsize'] at hk
        rw [if_pos (by omega), Nat.zero_add]
        exact hnew k hk
      · rw [hsize', Nat.zero_add] at hk
        split
        · exact hsame k hk ‹_›
        · rfl
    refine hstored.congr fun k _ hk => (if_pos ?_).symm
    omega
  · rw [hspan] at hk
    rw [hsame k (.inr ?_) hk', h.clear k hk hk']
    rw [Format.span_append, Format.span_cons, hsize'] at hk
    omega
  · rcases mem_append.mp hx with hpre | hx'
    · exact h.sized x (by simp [hpre])
    · rcases mem_cons.mp hx' with rfl | hpost
      · refine ⟨hino, fun hnil => ?_⟩
        rw [hnil] at hname
        exact (h.sized e (by simp)).2 (eq_nil_of_length_eq_zero hname.symm)
      · exact h.sized x (by simp [hpost])

end

theorem Block.append (h : Block buf es) (hino : e.ino < 65536) (hname : e.name ≠ [])
    (hroom : direntFormat.span es + (5 + e.name.length) ≤ 1024) (hnew : ∀ k, k < 5 + e.name.length →
      buf' (direntFormat.span es + k) = dirent e.ino e.name e.fileType k)
    (hsame : ∀ k, k < direntFormat.span es ∨ direntFormat.span es + (5 + e.name.length) ≤ k →
      k < 1024 → buf' k = buf k) : Block buf' (es ++ [e]) := by
  have hspan : direntFormat.span (es ++ [e]) = direntFormat.span es + (5 + e.name.length) := by
    rw [Format.span_append, Format.span_cons, Format.span_nil]
    rfl
  refine ⟨h.stored.append (fun k hk => ?_) fun k _ hk => ?_, fun k hk hk' => ?_, by omega, fun x hx => ?_⟩
  · rw [Nat.zero_add]
    exact hnew k hk
  · exact hsame k (.inl (by omega)) (by omega)
  · rw [hspan] at hk
    rw [hsame k (.inr hk) hk', h.clear k (by omega) hk']
  · rcases mem_append.mp hx with hes | hx'
    · exact h.sized x hes
    · rw [mem_singleton.mp hx']
      exact ⟨hino, hname⟩

theorem Block.nil (hclear : ∀ k, k < 1024 → buf k = 0) : Block buf [] :=
  { stored := trivial
    clear := fun k _ hk => hclear k hk
    inside := Nat.zero_le _
    sized := fun _ he => absurd he not_mem_nil }

end Block

def Passed (low : Nat) (P : Entry → Prop) (blocks : List (List Entry)) : Prop :=
  ∀ es ∈ blocks, low ≤ direntFormat.span es ∧ ∀ e ∈ es, ¬P e

/-- Where the scan of a laid directory can be: in front of a block, in front of an entry, or behind the
last entry of a block. -/
inductive Stands (d : Mem) (di : Inode) (blocks : List (List Entry)) (low : Nat)
    (P : Entry → Prop) : Cursor → Prop
  | between (before after : List (List Entry)) : blocks = before ++ after → Passed low P before →
      Stands d di blocks low P { block := none, off := 1024 * before.length }
  | inside (before after : List (List Entry)) (pre post : List Entry) :
      blocks = before ++ (pre ++ post) :: after → Passed low P before → (∀ e ∈ pre, ¬P e) →
      Stands d di blocks low P
        { block := some (jexfsBmap d di before.length, direntFormat.span pre)
          off := 1024 * before.length + direntFormat.span pre }
  | behind (before after : List (List Entry)) (es : List Entry) :
      blocks = before ++ es :: after → Passed low P before → (∀ e ∈ es, ¬P e) →
      direntFormat.span es < 1024 →
      1019 < direntFormat.span es ∨ di.size.toNat ≤ 1024 * before.length + direntFormat.span es →
      Stands d di blocks low P
        { block := none
          off := 1024 * before.length + direntFormat.span es }

inductive Outcome {ρ : Type} (di : Inode) (blocks : List (List Entry)) (low : Nat)
    (P : Entry → Prop) (found marker : Nat → Nat → ρ) (nothing : ρ) : ρ → Prop
  | found (before after : List (List Entry)) (pre post : List Entry) (e : Entry) :
      blocks = before ++ (pre ++ e :: post) :: after → Passed low P before →
      (∀ x ∈ pre, ¬P x) → P e →
      Outcome di blocks low P found marker nothing (found before.length (direntFormat.span pre))
  | marker (before after : List (List Entry)) (es : List Entry) :
      blocks = before ++ es :: after → Passed low P before → (∀ x ∈ es, ¬P x) →
      direntFormat.span es ≤ 1019 → di.size.toNat = 1024 * blocks.length →
      Outcome di blocks low P found marker nothing (marker before.length (direntFormat.span es))
  | nothing : (∀ es ∈ blocks, ∀ x ∈ es, ¬P x) →
      ((∀ es ∈ blocks, 1019 < direntFormat.span es) ∨ di.size.toNat < 1024 * blocks.length) →
      Outcome di blocks low P found marker nothing nothing

structure Sweeps {ρ : Type} (d : Mem) (di : Inode) (blocks : List (List Entry)) (low : Nat)
    (P : Entry → Prop) (found marker : Nat → Nat → ρ) (nothing : ρ)
    (body : Cursor → Except Fault (Pass Cursor ρ)) : Prop where
  enter : ∀ lb, 1024 * lb + 5 ≤ di.size.toNat → lb < blocks.length →
    body { block := none, off := 1024 * lb } =
      .ok (.again { block := some (jexfsBmap d di lb, 0), off := 1024 * lb })
  finish : ∀ off, di.size.toNat < off + 5 → body { block := none, off := off } = .ok (.leave nothing)
  exit : ∀ phys bo off, 1019 < bo ∨ di.size.toNat ≤ off →
    body { block := some (phys, bo), off := off } = .ok (.again { block := none, off := off })
  hit : ∀ before after pre post e, blocks = before ++ (pre ++ e :: post) :: after → P e →
    body { block := some (jexfsBmap d di before.length, direntFormat.span pre)
           off := 1024 * before.length + direntFormat.span pre } =
      .ok (.leave (found before.length (direntFormat.span pre)))
  miss : ∀ before after pre post e, blocks = before ++ (pre ++ e :: post) :: after → ¬P e →
    body { block := some (jexfsBmap d di before.length, direntFormat.span pre)
           off := 1024 * before.length + direntFormat.span pre } =
      .ok (.again (Cursor.skip
        { block := some (jexfsBmap d di before.length, direntFormat.span pre)
          off := 1024 * before.length + direntFormat.span pre } d
        (jexfsBmap d di before.length) (direntFormat.span pre)))
  mark : ∀ before after es, blocks = before ++ es :: after → direntFormat.span es ≤ 1019 →
    di.size.toNat = 1024 * blocks.length →
    body { block := some (jexfsBmap d di before.length, direntFormat.span es)
           off := 1024 * before.length + direntFormat.span es } =
      .ok (.leave (marker before.length (direntFormat.span es)))
  late : ∀ before after es, blocks = before ++ es :: after → 1019 < direntFormat.span es →
    direntFormat.span es < 1024 → 1024 * before.length + direntFormat.span es + 5 ≤ di.size.toNat →
    (low = 1024 ∧ body { block := none, off := 1024 * before.length + direntFormat.span es } =
        .ok (.again { block := some (jexfsBmap d di before.length, direntFormat.span es)
                      off := 1024 * before.length + direntFormat.span es })) ∨
      (low ≤ direntFormat.span es ∧
        body { block := none, off := 1024 * before.length + direntFormat.span es } =
          .ok (.again { block := none, off := 1024 * (before.length + 1) }))

def Unstuck (di : Inode) (blocks : List (List Entry)) (low : Nat) (P : Entry → Prop) : Prop :=
  di.size.toNat = 1024 * blocks.length → ∀ before es after, blocks = before ++ es :: after →
    Passed low P before → (∀ e ∈ es, ¬P e) →
      direntFormat.span es ≤ 1019 ∨ direntFormat.span es = 1024

section Sweeps

variable {d : Mem} {di : Inode} {blocks before after : List (List Entry)} {low : Nat}
  {P : Entry → Prop} {pre post es : List Entry} {e : Entry}

section

variable (h : Laid d di (before ++ es :: after))

include h

theorem Laid.at : Block (readBlock d (jexfsBmap d di before.length)) es :=
  h.block _ _ (by simp)

theorem Laid.mapped_at : jexfsBmap d di before.length ≠ 0 :=
  (h.mapped _).mpr (by simp)

theorem Laid.covers : 1024 * before.length + direntFormat.span es ≤ di.size.toNat ∧ (es ≠ [] ∨
      1024 * before.length + 1024 ≤ di.size.toNat) := by
  have hinside := h.at.inside
  rcases h.size with hfull | ⟨only, hne, hblocks, hsize⟩
  · rw [length_append, length_cons] at hfull
    exact ⟨by omega, .inr (by omega)⟩
  · cases before with
    | nil =>
      obtain ⟨rfl, -⟩ := hblocks
      rw [hsize]
      exact ⟨by simp, .inl hne⟩
    | cons b before =>
      rw [cons_append, cons.injEq] at hblocks
      exact absurd hblocks.2 (by simp)

end

theorem Laid.size_le (h : Laid d di blocks) : di.size.toNat ≤ 1024 * blocks.length := by
  rcases h.size with hfull | ⟨es, -, rfl, hsize⟩
  · exact hfull.le
  · have hinside := (h.block 0 es rfl).inside
    rw [hsize]
    simpa using hinside

theorem Laid.skip (h : Laid d di (before ++ (pre ++ e :: post) :: after)) (off : Nat) :
    Cursor.skip { block := some (jexfsBmap d di before.length, direntFormat.span pre), off := off } d
        (jexfsBmap d di before.length) (direntFormat.span pre) =
      { block := some (jexfsBmap d di before.length, direntFormat.span (pre ++ [e]))
        off := off + (5 + e.name.length) } := by
  have hle := h.at.end_le
  unfold Cursor.skip
  rw [h.at.length, Nat.mod_eq_of_lt (by omega), Format.span_append, Format.span_cons, Format.span_nil]
  rfl

theorem Stands.start : Stands d di blocks low P Cursor.start :=
  Stands.between [] blocks rfl fun _ hes => absurd hes not_mem_nil

theorem Passed.snoc (h : Passed low P before) (hlow : low ≤ direntFormat.span es)
    (hes : ∀ e ∈ es, ¬P e) : Passed low P (before ++ [es]) := by
  intro b hb
  rcases mem_append.mp hb with hb | hb
  · exact h b hb
  · rw [mem_singleton.mp hb]
    exact ⟨hlow, hes⟩

variable {ρ : Type} {found marker : Nat → Nat → ρ} {nothing : ρ}
  {body : Cursor → Except Fault (Pass Cursor ρ)}

theorem Laid.enters (h : Laid d di (before ++ es :: after)) : 1024 * before.length + 5 ≤ di.size.toNat := by
  obtain ⟨hspan, hne | hfull⟩ := h.covers
  · cases es with
    | nil => exact absurd rfl hne
    | cons e es =>
      have := size_pos e
      rw [Format.span_cons] at hspan
      omega
  · omega

theorem Laid.full_or_only (h : Laid d di (before ++ es :: after)) :
    di.size.toNat = 1024 * (before ++ es :: after).length ∨
      (before = [] ∧ after = [] ∧ di.size.toNat = direntFormat.span es) := by
  rcases h.size with hfull | ⟨only, -, hblocks, hsize⟩
  · exact .inl hfull
  · right
    cases before with
    | nil =>
      rw [nil_append, cons.injEq] at hblocks
      exact ⟨rfl, hblocks.2, hblocks.1 ▸ hsize⟩
    | cons b before =>
      rw [cons_append, cons.injEq] at hblocks
      exact absurd hblocks.2 (by simp)

theorem Laid.dirEntries (h : Laid d di blocks) : dirEntries d di = blocks := by
  have hlength : (di.size.toNat + 1023) / 1024 = blocks.length := by
    rcases h.size with hfull | ⟨es, hne, rfl, hsize⟩
    · omega
    · have hinside := (h.block 0 es rfl).inside
      have hpos : 5 ≤ direntFormat.span es := by
        obtain ⟨e, rest, rfl⟩ := exists_cons_of_ne_nil hne
        have := size_pos e
        rw [Format.span_cons]
        omega
      rw [length_singleton]
      omega
  unfold JexFs.dirEntries
  rw [hlength]
  refine ext_getElem (by simp) fun lb hlb hlb' => ?_
  simp only [getElem_map, getElem_range]
  exact (h.block lb _ (getElem?_eq_getElem hlb')).entries

variable (h : Sweeps d di blocks low P found marker nothing body)

include h

theorem Sweeps.step (hlaid : Laid d di blocks)
    (hlow : 1019 < low ∧ low ≤ 1024) {c : Cursor} (hc : Stands d di blocks low P c) :
    (∃ r, body c = .ok (.leave r) ∧ Outcome di blocks low P found marker nothing r) ∨
      ∃ t, body c = .ok (.again t) ∧ Stands d di blocks low P t ∧
        (Unstuck di blocks low P ∨ low ≠ 1024 → distance di t < distance di c) := by
  have hsize := hlaid.size_le
  cases hc with
  | between before after hblocks hpassed =>
    subst hblocks
    cases after with
    | nil =>
      rw [append_nil] at *
      refine .inl ⟨nothing, h.finish _ (by omega),
        .nothing (fun es hes => (hpassed es hes).2) (.inl fun es hes => ?_)⟩
      have := (hpassed es hes).1
      omega
    | cons es after =>
      have henters := hlaid.enters
      refine .inr ⟨_, h.enter before.length henters (by simp), ?_, fun _ => ?_⟩
      · exact Stands.inside before after [] es rfl hpassed fun _ he => absurd he not_mem_nil
      · have hin : Cursor.Inside
            { block := some (jexfsBmap d di before.length, 0), off := 1024 * before.length } di 0 :=
          ⟨by decide, show 1024 * before.length < di.size.toNat by omega⟩
        unfold distance
        rw [lag_inside rfl hin, lag_none rfl]
        dsimp only
        omega
  | inside before after pre post hblocks hpassed hpre =>
    subst hblocks
    cases post with
    | nil =>
      rw [append_nil] at *
      have hinside := hlaid.at.inside
      have hleave : ¬(direntFormat.span pre ≤ 1019 ∧
          1024 * before.length + direntFormat.span pre < di.size.toNat) →
          body { block := some (jexfsBmap d di before.length, direntFormat.span pre)
                 off := 1024 * before.length + direntFormat.span pre } =
            .ok (.again { block := none, off := 1024 * before.length + direntFormat.span pre }) ∧
          distance di { block := none, off := 1024 * before.length + direntFormat.span pre } <
            distance di { block := some (jexfsBmap d di before.length, direntFormat.span pre)
                          off := 1024 * before.length + direntFormat.span pre } := by
        intro hout
        refine ⟨h.exit _ _ _ (by omega), ?_⟩
        have hout' : ¬Cursor.Inside
            { block := some (jexfsBmap d di before.length, direntFormat.span pre)
              off := 1024 * before.length + direntFormat.span pre } di (direntFormat.span pre) :=
          fun hin => hout ⟨by have := hin.1; omega, hin.2⟩
        unfold distance
        rw [lag_none rfl, lag_outside rfl hout']
        dsimp only
        omega
      by_cases hmark : direntFormat.span pre ≤ 1019 ∧
        1024 * before.length + direntFormat.span pre < di.size.toNat
      · have hfull := hlaid.full_or_only.resolve_right fun ⟨hb, _, hs⟩ => by
          rw [hb, hs] at hmark
          simp at hmark
        exact .inl ⟨_, h.mark before after pre rfl hmark.1 hfull,
          .marker before after pre rfl hpassed hpre hmark.1 hfull⟩
      · obtain ⟨hbody, hlt⟩ := hleave hmark
        refine .inr ⟨_, hbody, ?_, fun _ => hlt⟩
        by_cases hwhole : direntFormat.span pre = 1024
        · have hstand : Stands d di _ low P _ := .between (before ++ [pre]) after
            (append_cons _ _ _) (hpassed.snoc (by omega) hpre)
          rw [hwhole]
          rwa [length_append, length_singleton, Nat.mul_add, Nat.mul_one] at hstand
        · exact Stands.behind before after pre rfl hpassed hpre (by omega) (by omega)
    | cons e post =>
      by_cases he : P e
      · exact .inl ⟨_, h.hit before after pre post e rfl he,
          .found before after pre post e rfl hpassed hpre he⟩
      · have hbody := h.miss before after pre post e rfl he
        have hend := hlaid.at.end_le
        have hcover := hlaid.covers.1
        rw [hlaid.skip] at hbody
        rw [Format.span_append, Format.span_cons] at hcover
        have hsizeE := size_pos e
        refine .inr ⟨_, hbody, ?_, fun _ => ?_⟩
        · have hstand : Stands d di _ low P _ := .inside before after (pre ++ [e]) post
            (by rw [append_assoc]) hpassed (fun x hx => by
              rcases mem_append.mp hx with hx | hx
              · exact hpre x hx
              · rwa [mem_singleton.mp hx])
          rwa [show 1024 * before.length + direntFormat.span (pre ++ [e]) =
            1024 * before.length + direntFormat.span pre + (5 + e.name.length) by
              rw [Format.span_append, Format.span_cons, Format.span_nil]
              exact (Nat.add_assoc _ _ _).symm] at hstand
        · have hin : Cursor.Inside
              { block := some (jexfsBmap d di before.length, direntFormat.span pre)
                off := 1024 * before.length + direntFormat.span pre } di (direntFormat.span pre) :=
            ⟨by omega, show 1024 * before.length + direntFormat.span pre < di.size.toNat by omega⟩
          have hle := lag_le di
            { block := some (jexfsBmap d di before.length, direntFormat.span (pre ++ [e]))
              off := 1024 * before.length + direntFormat.span pre + (5 + e.name.length) }
          unfold distance
          dsimp only
          omega
  | behind before after es hblocks hpassed hes hshort hend =>
    subst hblocks
    have hlength : (before ++ es :: after).length = before.length + 1 + after.length := by
      rw [length_append, length_cons]
      omega
    by_cases hfinish : di.size.toNat < 1024 * before.length + direntFormat.span es + 5
    · refine .inl ⟨nothing, h.finish _ hfinish, .nothing (fun b hb x hx => ?_) ?_⟩
      · have hlast : after = [] := by
          rcases hlaid.full_or_only with hfull | ⟨-, hnil, -⟩
          · exact eq_nil_of_length_eq_zero (by omega)
          · exact hnil
        rw [hlast] at hb
        rcases mem_append.mp hb with hb | hb
        · exact (hpassed b hb).2 x hx
        · rw [mem_singleton.mp hb] at hx
          exact hes x hx
      · by_cases hshorter : di.size.toNat < 1024 * (before ++ es :: after).length
        · exact .inr hshorter
        · refine .inl fun b hb => ?_
          have hlast : after = [] := eq_nil_of_length_eq_zero (by omega)
          rw [hlast] at hb
          rcases mem_append.mp hb with hb | hb
          · have := (hpassed b hb).1
            omega
          · rw [mem_singleton.mp hb]
            omega
    · have hstuck : ¬Unstuck di (before ++ es :: after) low P := by
        intro hunstuck
        rcases hlaid.full_or_only with hfull | ⟨hb, _, hs⟩
        · have := hunstuck hfull before es after rfl hpassed hes
          omega
        · rw [hb] at hfinish
          omega
      rcases h.late before after es rfl (by omega) hshort (by omega) with ⟨heq, hback⟩ | ⟨hpass, hon⟩
      · refine .inr ⟨_, hback, ?_, fun hends => absurd heq (hends.resolve_left hstuck)⟩
        refine Stands.inside before after es [] ?_ hpassed hes
        rw [append_nil]
      · refine .inr ⟨_, hon, ?_, fun _ => ?_⟩
        · have hstand : Stands d di _ low P _ := .between (before ++ [es]) after
            (append_cons _ _ _) (hpassed.snoc hpass hes)
          rwa [length_append, length_singleton] at hstand
        · unfold distance
          rw [lag_none rfl, lag_none rfl]
          dsimp only
          omega

theorem Sweeps.outcome (hlaid : Laid d di blocks) (hlow : 1019 < low ∧ low ≤ 1024) {n : Nat} {r : ρ}
    (hrun : run .diverges body n Cursor.start = .ok r) : Outcome di blocks low P found marker nothing r := by
  obtain ⟨c, hc, hleave⟩ := run_invariant (P := Stands d di blocks low P)
    (fun c t hc hagain => by
      rcases h.step hlaid hlow hc with ⟨r', hr, -⟩ | ⟨t', ht, hstand, -⟩
      · rw [hr] at hagain
        cases hagain
      · rw [ht] at hagain
        cases hagain
        exact hstand) Stands.start hrun
  rcases h.step hlaid hlow hc with ⟨r', hr, hout⟩ | ⟨t, ht, -⟩
  · rw [hr] at hleave
    cases hleave
    exact hout
  · rw [ht] at hleave
    cases hleave

theorem Sweeps.ends (hlaid : Laid d di blocks) (hunstuck : Unstuck di blocks low P ∨ low ≠ 1024)
    (hlow : 1019 < low ∧ low ≤ 1024) : ∃ r, run .diverges body (scanFuel di) Cursor.start = .ok r := by
  obtain ⟨t, r, -, -, hrun⟩ := run_total (P := Stands d di blocks low P) (distance di)
    (fun c hc => by
      rcases h.step hlaid hlow hc with ⟨r, hr, -⟩ | ⟨t, ht, hstand, hlt⟩
      · exact .inl ⟨r, hr⟩
      · exact .inr ⟨t, ht, hstand, hlt hunstuck⟩) Stands.start
    (show distance di Cursor.start < scanFuel di by
      have hle := lag_le di Cursor.start
      unfold distance scanFuel
      omega)
  exact ⟨r, hrun⟩

end Sweeps

section Driver

variable {d : Mem} {di : Inode} {blocks : List (List Entry)} {name : Name} {len : Nat} {e : Entry}

/-- The entry is one for this name, as far as the driver reads names. -/
def Entry.Names (e : Entry) (name : Name) : Prop := e.ino ≠ 0 ∧ e.name = name.take (nameLen name)

instance (e : Entry) (name : Name) : Decidable (e.Names name) :=
  inferInstanceAs (Decidable (_ ∧ _))

def Entry.Reusable (e : Entry) (len : Nat) : Prop := e.ino = 0 ∧ len ≤ e.name.length

instance (e : Entry) (len : Nat) : Decidable (e.Reusable len) :=
  inferInstanceAs (Decidable (_ ∧ _))

theorem length_take_nameLen (name : Name) : (name.take (nameLen name)).length = nameLen name :=
  length_take_of_le (nameLen_le name)

theorem nameLen_short (h : name.length ≤ 255) : nameLen name = name.length :=
  Nat.mod_eq_of_lt (by omega)

theorem sameBytes_eq {buf : Mem} {pos : Nat} (hin : pos + name.length ≤ 1024) :
    sameBytes buf pos name = .ok (decide ((List.range name.length).map (fun k => buf (pos + k)) = name)) := by
  induction name generalizing pos with
  | nil => rfl
  | cons c cs ih =>
    rw [length_cons] at hin
    unfold sameBytes
    rw [if_neg (by omega), length_cons, range_succ_eq_map, map_cons, map_map]
    by_cases hc : buf pos = c
    · rw [if_pos hc, ih (by omega)]
      simp only [Nat.add_zero, hc, cons.injEq, true_and, Function.comp_def, Nat.add_right_comm,
        Nat.succ_eq_add_one, Nat.add_assoc]
    · rw [if_neg hc]
      simp only [Nat.add_zero, cons.injEq, hc, false_and, decide_false]

theorem Block.matches {buf : Mem} {pre post : List Entry} (h : Block buf (pre ++ e :: post)) (name : Name) :
    entryMatches buf (direntFormat.span pre) name = .ok (decide (e.Names name)) := by
  have hlen := length_take_nameLen name
  have hend := h.end_le
  unfold entryMatches
  rw [h.ino, h.length]
  by_cases hhead : e.ino ≠ 0 ∧ e.name.length = JexFs.nameLen name
  · have hbytes : (List.range (name.take (JexFs.nameLen name)).length).map
        (fun k => buf (direntFormat.span pre + 5 + k)) = e.name := by
      rw [hlen, ← hhead.2]
      refine ext_getElem (by simp) fun k hk hk' => ?_
      simp only [getElem_map, getElem_range]
      exact h.name hk'
    rw [if_pos hhead, sameBytes_eq (by omega), hbytes]
    unfold Entry.Names
    simp only [hhead.1, ne_eq, not_false_eq_true, true_and]
  · rw [if_neg hhead]
    have hnot : ¬e.Names name := fun hnames => hhead ⟨hnames.1, by rw [hnames.2, hlen]⟩
    rw [decide_eq_false hnot]

theorem sweeps_search (h : Laid d di blocks) :
    Sweeps d di blocks 1024 (·.Names name) (fun lb bo => some (jexfsBmap d di lb, bo))
      (fun _ _ => none) none (searchBody d di name) where
  enter := by
    intro lb hsize hlb
    have hmapped := (h.mapped lb).mpr hlb
    unfold searchBody
    dsimp only
    rw [if_pos hsize, Nat.mul_div_cancel_left lb (by decide), if_neg hmapped, Nat.mul_mod_right]
  finish := by
    intro off hoff
    unfold searchBody
    dsimp only
    rw [if_neg (by omega)]
  exit := by
    intro phys bo off hout
    unfold searchBody
    dsimp only
    rw [if_neg (by omega)]
  hit := by
    rintro before after pre post e rfl he
    have hcover := h.covers.1
    have hend := h.at.end_le
    rw [Format.span_append, Format.span_cons] at hcover
    have hpos := size_pos e
    unfold searchBody
    dsimp only
    rw [if_pos (by omega), if_neg h.at.not_marker, h.at.matches, decide_eq_true he]
    rfl
  miss := by
    rintro before after pre post e rfl he
    have hcover := h.covers.1
    have hend := h.at.end_le
    rw [Format.span_append, Format.span_cons] at hcover
    have hpos := size_pos e
    unfold searchBody
    dsimp only
    rw [if_pos (by omega), if_neg h.at.not_marker, h.at.matches, decide_eq_false he]
    rfl
  mark := by
    rintro before after es rfl hroom hsize
    unfold searchBody
    dsimp only
    rw [length_append, length_cons] at hsize
    rw [if_pos (by omega), if_pos (h.at.marker (by omega))]
  late := by
    rintro before after es rfl - hshort hmore
    have hmapped := h.mapped_at
    unfold searchBody
    dsimp only
    rw [if_pos hmore, Nat.mul_add_div (by decide), Nat.div_eq_of_lt hshort, Nat.add_zero,
      if_neg hmapped, Nat.mul_add_mod, Nat.mod_eq_of_lt hshort]
    exact .inl ⟨rfl, rfl⟩

theorem sweeps_slot (h : Laid d di blocks) (hlen : len ≤ 1019) :
    Sweeps d di blocks 1020 (·.Reusable len) (fun lb bo => some (1024 * lb + bo))
      (fun lb bo => some (1024 * lb + bo)) none (slotBody d di len) where
  enter := by
    intro lb hsize hlb
    have hmapped := (h.mapped lb).mpr hlb
    unfold slotBody
    dsimp only
    rw [if_pos hsize, Nat.mul_div_cancel_left lb (by decide), Nat.mul_mod_right, if_neg]
    rintro (hlong | hzero)
    · omega
    · exact hmapped hzero
  finish := by
    intro off hoff
    unfold slotBody
    dsimp only
    rw [if_neg (by omega)]
  exit := by
    intro phys bo off hout
    unfold slotBody
    dsimp only
    rw [if_neg (by omega)]
  hit := by
    rintro before after pre post e rfl he
    have hcover := h.covers.1
    have hend := h.at.end_le
    rw [Format.span_append, Format.span_cons] at hcover
    have hpos := size_pos e
    unfold slotBody
    dsimp only
    rw [if_pos (by omega), h.at.ino, h.at.length, if_pos ⟨he.1, .inr he.2⟩]
  miss := by
    rintro before after pre post e rfl he
    have hcover := h.covers.1
    have hend := h.at.end_le
    rw [Format.span_append, Format.span_cons] at hcover
    have hpos := size_pos e
    have hname := (h.at.sized e (by simp)).2
    unfold slotBody
    dsimp only
    rw [if_pos (by omega), h.at.ino, h.at.length, if_neg]
    rintro ⟨hino, hzero | hle⟩
    · exact hname (eq_nil_of_length_eq_zero hzero)
    · exact he ⟨hino, hle⟩
  mark := by
    rintro before after es rfl hroom hsize
    obtain ⟨hino, hzero⟩ := h.at.marker (by omega)
    rw [length_append, length_cons] at hsize
    unfold slotBody
    dsimp only
    rw [if_pos (by omega), if_pos ⟨hino, .inl hzero⟩]
  late := by
    rintro before after es rfl hlate hshort hmore
    have hsize := di.size.toNat_lt
    have hfull : di.size.toNat = 1024 * (before ++ es :: after).length :=
      h.full_or_only.resolve_right fun ⟨hb, _, hs⟩ => by
        rw [hb] at hmore
        simp only [length_nil] at hmore
        omega
    rw [length_append, length_cons] at hfull
    have hbo : (1024 * before.length + direntFormat.span es) % 1024 = direntFormat.span es := by
      rw [Nat.mul_add_mod, Nat.mod_eq_of_lt hshort]
    refine .inr ⟨hlate, ?_⟩
    unfold slotBody
    dsimp only
    rw [if_pos hmore, hbo, if_pos (.inl (by omega)), Nat.mod_eq_of_lt (by omega)]
    congr 3
    omega

end Driver

end JexOs.JexFs
