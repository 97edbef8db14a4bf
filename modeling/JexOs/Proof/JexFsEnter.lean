import JexOs.Proof.JexFsCopy
import JexOs.Proof.JexFsLayout
import JexOs.Proof.JexFsRemove

/-!
# Finding, entering and deleting names

On a laid directory a search finds the first entry of the name that it can get at, and a new entry takes the
place of a deleted one, goes behind the others of a block, or opens a block.
-/

namespace JexOs.JexFs

open ByteMem Ownership Loop List Option

/-- The entries a search can get at: those up to the first block that is not full. -/
def visible : List (List Entry) → List Entry
  | [] => []
  | es :: rest => if direntFormat.span es = 1024 then es ++ visible rest else es

/-- Up to the first block of these lengths that is not full, none ends in a rest that is too short for
a header. -/
def RestsFit : List Nat → Prop
  | [] => True
  | n :: rest => n ≤ 1019 ∨ (n = 1024 ∧ RestsFit rest)

/-- No block that a search gets to ends in a rest that is too short for a header. -/
def Searchable (di : Inode) (blocks : List (List Entry)) : Prop :=
  di.size.toNat = 1024 * blocks.length → RestsFit (blocks.map direntFormat.span)

def lookup (blocks : List (List Entry)) (name : Name) : Option Entry :=
  (visible blocks).find? fun e => decide (e.Names name)

section Find

variable {d : Mem} {di : Inode} {blocks before after : List (List Entry)} {pre post es : List Entry}
  {e : Entry} {name : Name}

theorem restsFit_append {before after : List Nat} (h : ∀ n ∈ before, n = 1024) :
    RestsFit (before ++ after) ↔ RestsFit after := by
  induction before with
  | nil => rfl
  | cons n before ih =>
    have hn := h n mem_cons_self
    rw [cons_append, RestsFit, ih fun m hm => h m (mem_cons_of_mem _ hm)]
    exact ⟨fun hfit => (hfit.resolve_left (by omega)).2, fun hfit => .inr ⟨hn, hfit⟩⟩

theorem visible_append (h : ∀ es ∈ before, direntFormat.span es = 1024) :
    visible (before ++ after) = before.flatten ++ visible after := by
  induction before with
  | nil => rfl
  | cons es before ih =>
    rw [cons_append, visible, if_pos (h es mem_cons_self),
      ih fun b hb => h b (mem_cons_of_mem _ hb), flatten_cons, append_assoc]

theorem visible_cons (es : List Entry) (rest : List (List Entry)) :
    ∃ more, visible (es :: rest) = es ++ more := by
  unfold visible
  split
  · exact ⟨_, rfl⟩
  · exact ⟨[], (append_nil es).symm⟩

theorem mem_of_visible (h : e ∈ visible blocks) : e ∈ blocks.flatten := by
  induction blocks with
  | nil => exact h
  | cons es rest ih =>
    rw [flatten_cons, mem_append]
    unfold visible at h
    split at h
    · exact (mem_append.mp h).imp id ih
    · exact .inl h

theorem Laid.inside (h : Laid d di blocks) (hes : es ∈ blocks) : direntFormat.span es ≤ 1024 := by
  obtain ⟨lb, hlb⟩ := mem_iff_getElem?.mp hes
  exact (h.block lb es hlb).inside

variable {P : Entry → Prop}

theorem Passed.full (h : Passed 1024 P before) (hlaid : Laid d di (before ++ after)) :
    ∀ es ∈ before, direntFormat.span es = 1024 := fun es hes =>
  Nat.le_antisymm (hlaid.inside (mem_append_left _ hes)) (h es hes).1

theorem find_none [DecidablePred P] (h : ∀ e ∈ es, ¬P e) : (es.find? fun e => decide (P e)) = none :=
  find?_eq_none.mpr fun e he => by simpa using h e he

theorem Passed.find [DecidablePred P] {low : Nat} (h : Passed low P before) :
    (before.flatten.find? fun e => decide (P e)) = none :=
  find_none fun e he => by
    obtain ⟨es, hes, hmem⟩ := mem_flatten.mp he
    exact (h es hes).2 e hmem

structure Hit (d : Mem) (di : Inode) (blocks : List (List Entry)) (name : Name) (phys bo : Nat)
    (before : List (List Entry)) (pre : List Entry) (e : Entry) (post : List Entry)
    (after : List (List Entry)) : Prop where
  lies : blocks = before ++ (pre ++ e :: post) :: after
  full : ∀ es ∈ before, direntFormat.span es = 1024
  phys : phys = jexfsBmap d di before.length
  bo : bo = direntFormat.span pre
  names : e.Names name
  first : lookup blocks name = some e

theorem searchDir_laid (h : Laid d di blocks) {r : Option (Nat × Nat)} (hrun : searchDir d di name = .ok r) :
    (r = none ∧ lookup blocks name = none) ∨ ∃ phys bo before pre e post after,
      r = some (phys, bo) ∧ Hit d di blocks name phys bo before pre e post after := by
  have hout := (sweeps_search h).outcome h (by decide) hrun
  unfold lookup
  cases hout with
  | found before after pre post e hblocks hpassed hpre he =>
    subst hblocks
    have hfull := hpassed.full h
    refine .inr ⟨_, _, before, pre, e, post, after, rfl, rfl, hfull, rfl, rfl, he, ?_⟩
    obtain ⟨more, hmore⟩ := visible_cons (pre ++ e :: post) after
    unfold lookup
    rw [visible_append hfull, hmore, find?_append, hpassed.find, none_or,
      append_assoc, find?_append, find_none hpre, none_or, cons_append]
    exact find?_cons_of_pos (decide_eq_true he)
  | marker before after es hblocks hpassed hes hroom _ =>
    subst hblocks
    refine .inl ⟨rfl, ?_⟩
    rw [visible_append (hpassed.full h), visible, if_neg (by omega), find?_append, hpassed.find,
      none_or, find_none hes]
  | nothing hnone _ =>
    refine .inl ⟨rfl, find_none fun e he => ?_⟩
    obtain ⟨es, hes, hmem⟩ := mem_flatten.mp (mem_of_visible he)
    exact hnone es hes e hmem

theorem searchDir_ends (h : Laid d di blocks) (hsearchable : Searchable di blocks) (name : Name) :
    ∃ r, searchDir d di name = .ok r := by
  refine (sweeps_search h).ends h (.inl fun hsize before es after hblocks hpassed _ => ?_) (by decide)
  subst hblocks
  have hfit := hsearchable hsize
  rw [map_append, map_cons, restsFit_append fun n hn => by
    obtain ⟨b, hb, rfl⟩ := mem_map.mp hn
    exact hpassed.full h b hb] at hfit
  exact hfit.imp_right And.left

theorem searchDir_lookup (h : Laid d di blocks) (hlookup : lookup blocks name = some e) :
    ∃ phys bo before pre post after, searchDir d di name = .ok (some (phys, bo)) ∧
      Hit d di blocks name phys bo before pre e post after := by
  obtain ⟨r, hr⟩ : ∃ r, searchDir d di name = .ok r := (sweeps_search h).ends h
    (.inl fun _ before es after hblocks hpassed hes => by
      subst hblocks
      by_contra hshort
      unfold lookup at hlookup
      rw [visible_append (hpassed.full h), visible, if_neg (by omega), find?_append, hpassed.find,
        none_or, find_none hes] at hlookup
      cases hlookup) (by decide)
  rcases searchDir_laid h hr with
    ⟨-, hnone⟩ | ⟨phys, bo, before, pre, e', post, after, rfl, hhit⟩
  · rw [hlookup] at hnone
    cases hnone
  · have hsame := hhit.first
    rw [hlookup, some.injEq] at hsame
    subst hsame
    exact ⟨phys, bo, before, pre, post, after, hr, hhit⟩

theorem Hit.entry {phys bo : Nat} (hit : Hit d di blocks name phys bo before pre e post after)
    (h : Laid d di blocks) :
    load16 (readBlock d phys) bo = e.ino ∧ load16 (readBlock d phys) (bo + 2) = e.name.length ∧
      bo + (5 + e.name.length) ≤ 1024 := by
  obtain ⟨rfl, -, rfl, rfl, -, -⟩ := hit
  exact ⟨h.at.ino, h.at.length, h.at.end_le⟩

end Find

section Edit

variable {total idx : Nat} {d d' : Mem} {di di' : Inode} {blocks before after : List (List Entry)}
  {pre post es es' : List Entry} {e e' : Entry}

theorem Laid.congr (h : Laid d di blocks) (hagree : DirAgree d d' di) : Laid d' di blocks :=
  { mapped := fun lb => by
      rw [hagree.bmap]
      exact h.mapped lb
    block := fun lb es hes => by
      have hne := (h.mapped lb).mpr (List.getElem?_eq_some_iff.mp hes).1
      rw [hagree.bmap]
      exact (h.block lb es hes).congr fun k hk => hagree.contents lb hne k hk
    size := h.size }

theorem Laid.edit (h : Laid d di (before ++ es :: after)) (hplaced : Placed d di)
    (hbmap : ∀ l, jexfsBmap d' di l = jexfsBmap d di l)
    (hsame : ∀ k, 1024 ≤ k → k / 1024 ≠ jexfsBmap d di before.length → d' k = d k)
    (hblock : Block (readBlock d' (jexfsBmap d di before.length)) es')
    (hsize : di.size.toNat = 1024 * (before ++ es :: after).length ∨
      (es' ≠ [] ∧ direntFormat.span es' = direntFormat.span es)) : Laid d' di (before ++ es' :: after) := by
  have hlength : (before ++ es' :: after).length = (before ++ es :: after).length := by simp
  refine ⟨fun lb => ?_, fun lb x hx => ?_, ?_⟩
  · rw [hbmap, hlength]
    exact h.mapped lb
  · have hlb := (List.getElem?_eq_some_iff.mp hx).1
    have hne := (h.mapped lb).mpr (hlength ▸ hlb)
    rw [hbmap]
    by_cases heq : lb = before.length
    · subst heq
      rw [getElem?_append_right le_rfl, Nat.sub_self, getElem?_cons_zero, some.injEq] at hx
      exact hx ▸ hblock
    · have hold : (before ++ es :: after)[lb]? = some x := by
        rcases Nat.lt_or_gt_of_ne heq with hlt | hgt
        · rw [getElem?_append_left hlt] at hx ⊢
          exact hx
        · rw [getElem?_append_right (by omega)] at hx ⊢
          obtain ⟨n, hn⟩ : ∃ n, lb - before.length = n + 1 := ⟨lb - before.length - 1, by omega⟩
          rw [hn] at hx ⊢
          exact hx
      refine (h.block lb x hold).congr fun k hk => hsame _ ?_ ?_
      · omega
      · intro hphys
        exact heq (hplaced.bmap_inj h.mapped_at (by omega))
  · rcases h.full_or_only with hfull | ⟨rfl, rfl, hspan⟩
    · exact .inl (hlength ▸ hfull)
    · rcases hsize with hfull | ⟨hne, heq⟩
      · exact .inl hfull
      · exact .inr ⟨es', hne, rfl, heq ▸ hspan⟩

theorem bmap_edit {lb a n : Nat} (src : Mem) (h : Sound d (inodeAt d)) (hidx : Live d idx)
    (hne : jexfsBmap d (inodeAt d idx) lb ≠ 0) (hlow : 1024 * jexfsBmap d (inodeAt d idx) lb ≤ a)
    (hhigh : a + n ≤ 1024 * jexfsBmap d (inodeAt d idx) lb + 1024) :
    inodeAt (blit d a n src) idx = inodeAt d idx ∧
      (∀ l, jexfsBmap (blit d a n src) (inodeAt d idx) l = jexfsBmap d (inodeAt d idx) l) ∧
      (∀ k, 1024 ≤ k → k / 1024 ≠ jexfsBmap d (inodeAt d idx) lb → blit d a n src k = d k) ∧
      Works True idx d (inodeAt d idx) (blit d a n src) (inodeAt d idx) := by
  have hview : Sound d (view d idx (inodeAt d idx)) := by rwa [view_inodeAt]
  have hge := (hview.mapped hidx hne).2.2.1.1
  have hlt := hidx.1
  have hchange : ∀ k, 1024 ≤ k → k / 1024 ≠ jexfsBmap d (inodeAt d idx) lb →
      blit d a n src k = d k := by
    intro k _ hk
    rcases lt_or_ge k a with hbelow | habove
    · exact blit_of_lt hbelow
    · exact blit_of_ge (by omega)
  have hrec : inodeAt (blit d a n src) idx = inodeAt d idx := inodeAt_congr fun k _ _ => blit_of_lt (by omega)
  refine ⟨hrec, fun l => bmap_congr (fun s => ?_) l, hchange, Works.edit src hview hidx hne hlow hhigh⟩
  have hslot := slots_write hge hchange (fun i s hi heq => hview.mapped_held hidx hne hi heq) hidx (mapSlot s)
  rwa [view_self, view_self] at hslot

theorem Laid.blit {n : Nat} (bo : Nat) (src : Mem) (h : Laid d (inodeAt d idx) (before ++ es :: after))
    (hsound : Sound d (inodeAt d)) (hidx : Live d idx) (hin : bo + n ≤ 1024)
    (hblock : Block (readBlock (blit d (1024 * jexfsBmap d (inodeAt d idx) before.length + bo) n src)
      (jexfsBmap d (inodeAt d idx) before.length)) es')
    (hsize : (inodeAt d idx).size.toNat = 1024 * (before ++ es :: after).length ∨
      (es' ≠ [] ∧ direntFormat.span es' = direntFormat.span es)) :
    let d' := ByteMem.blit d (1024 * jexfsBmap d (inodeAt d idx) before.length + bo) n src
    Laid d' (inodeAt d' idx) (before ++ es' :: after) := by
  have hview : Sound d (view d idx (inodeAt d idx)) := by rwa [view_inodeAt]
  obtain ⟨hrec, hbmap, hsame, -⟩ := bmap_edit
    (a := 1024 * jexfsBmap d (inodeAt d idx) before.length + bo) (n := n) src hsound hidx h.mapped_at
    (by omega) (by omega)
  dsimp only
  rw [hrec]
  exact h.edit (hview.placed hidx) hbmap hsame hblock hsize

theorem readBlock_blit {phys bo n k : Nat}
    {src : Mem} : readBlock (ByteMem.blit d (1024 * phys + bo) n src) phys k =
      ByteMem.blit (readBlock d phys) bo n src k := by
  simp only [readBlock, ByteMem.blit]
  by_cases hin : bo ≤ k ∧ k < bo + n
  · rw [if_pos hin, if_pos (by omega)]
    congr 1
    omega
  · rw [if_neg hin, if_neg (by omega)]

end Edit

/-- A name of `len` bytes is entered without a longer deleted entry, and a block that is opened for it is clear.
Before the call has come to that, it has taken `taken` blocks. -/
structure AddsEvenly (total : Nat) (d : Mem) (idx len taken : Nat) : Prop where
  reuse : ∀ off, findSlot d (inodeAt d idx) len = .ok (some off) →
    load16 (readBlock d (jexfsBmap d (inodeAt d idx) (off / 1024))) (off % 1024 + 2) ≤ len
  grow : findSlot d (inodeAt d idx) len = .ok none → jexfsBmap d (inodeAt d idx) 519 = 0 ∧
    ∀ b ∈ freeBlocksLeft total d,
      freeBefore total d b = taken + (if jexfsBmap d (inodeAt d idx) 7 ≠ 0 ∧
        (inodeAt d idx).indirectBlock = 0 then 2 else 1) →
      ∀ k, k < 1024 → d (1024 * b + k) = 0

def markerSlot (len : Nat) : List (List Entry) → Option Nat
  | [] => none
  | es :: rest =>
    if es.any fun e => decide (e.Reusable len) then none
    else if direntFormat.span es ≤ 1019 then some (direntFormat.span es)
    else markerSlot len rest

/-- The ways in which a name is entered. Every block in front of the one it goes to is as good as
full. -/
inductive Adds (di : Inode) (e : Entry) : List (List Entry) → List (List Entry) → Prop
  | reuse (before after : List (List Entry)) (pre post : List Entry) (old : Entry) :
      (∀ es ∈ before, 1019 < direntFormat.span es) → old.ino = 0 →
      old.name.length = e.name.length →
      Adds di e (before ++ (pre ++ old :: post) :: after) (before ++ (pre ++ e :: post) :: after)
  | append (before after : List (List Entry)) (es : List Entry) :
      (∀ es ∈ before, 1019 < direntFormat.span es) → direntFormat.span es ≤ 1019 →
      di.size.toNat = 1024 * (before ++ es :: after).length →
      markerSlot e.name.length (before ++ es :: after) = some (direntFormat.span es) →
      Adds di e (before ++ es :: after) (before ++ (es ++ [e]) :: after)
  | grow (blocks : List (List Entry)) :
      (∀ es ∈ blocks, 1019 < direntFormat.span es) ∨ di.size.toNat < 1024 * blocks.length →
      (∀ es ∈ blocks, ∀ x ∈ es, ¬x.Reusable e.name.length) →
      Adds di e blocks (blocks ++ [[e]])

section Enter

variable {total idx ino off : Nat} {d d' : Mem} {di : Inode} {blocks before after : List (List Entry)}
  {pre post es : List Entry} {e old : Entry} {name : Name} {ft : UInt8}

def newEntry (ino : Nat) (name : Name) (ft : UInt8) : Entry :=
  { ino := ino
    fileType := ft
    name := name.take (nameLen name) }

theorem newEntry_length : (newEntry ino name ft).name.length = nameLen name :=
  length_take_nameLen name

theorem dirent_newEntry {k : Nat} (hk : k < 5 + nameLen name) :
    dirent ino name ft k = dirent ino (newEntry ino name ft).name ft k := by
  have hnameLen : nameLen (newEntry ino name ft).name = nameLen name := by
    rw [nameLen, newEntry_length, nameLen, Nat.mod_mod]
  unfold dirent
  rw [hnameLen]
  split
  · rfl
  split
  · rfl
  split
  · rfl
  · simp only [newEntry, getD_eq_getElem?_getD, getElem?_take]
    rw [if_pos (by omega)]

theorem markerSlot_passed {len low : Nat} (after : List (List Entry)) (hlow : 1019 < low)
    (h : Passed low (·.Reusable len) before)
    (hes : ∀ e ∈ es, ¬e.Reusable len) (hspan : direntFormat.span es ≤ 1019) :
    markerSlot len (before ++ es :: after) = some (direntFormat.span es) := by
  have hany : ∀ {xs : List Entry}, (∀ e ∈ xs, ¬e.Reusable len) →
      (xs.any fun e => decide (e.Reusable len)) = false := fun hxs =>
    any_eq_false.mpr fun e he => by simpa using hxs e he
  induction before with
  | nil =>
    rw [nil_append, markerSlot, hany hes, if_neg Bool.false_ne_true, if_pos hspan]
  | cons b before ih =>
    obtain ⟨hb, hnone⟩ := h b mem_cons_self
    rw [cons_append, markerSlot, hany hnone, if_neg Bool.false_ne_true, if_neg (by omega)]
    exact ih fun x hx => h x (mem_cons_of_mem _ hx)

variable {r : Ret Unit}

theorem writeEntry_blit (h : Sound d (inodeAt d)) (hidx : Live d idx)
    (hmapped : jexfsBmap d (inodeAt d idx) (off / 1024) ≠ 0)
    (hend : off + (5 + nameLen name) ≤ (inodeAt d idx).size.toNat)
    (hrun : writeEntry (layout total) d idx (inodeAt d idx) off ino name ft = .ok (r, d')) :
    r = .ok () ∧ off % 1024 + (5 + nameLen name) ≤ 1024 ∧
      d' = ByteMem.blit d (1024 * jexfsBmap d (inodeAt d idx) (off / 1024) + off % 1024)
        (5 + nameLen name) (dirent ino name ft) := by
  have hview : Sound d (view d idx (inodeAt d idx)) := by rwa [view_inodeAt]
  have hlt := (inodeAt d idx).size.toNat_lt
  rcases writeEntry_cases hview hidx hrun with ⟨hzero, -⟩ | ⟨-, hr, hin, hd'⟩
  · exact absurd hzero hmapped
  · rw [Nat.mod_eq_of_lt (by omega), stretchDisk, if_neg (by omega)] at hd'
    exact ⟨hr, hin, hd'⟩

theorem writeEntry_reuse (h : Laid d (inodeAt d idx) (before ++ (pre ++ old :: post) :: after))
    (hsound : Sound d (inodeAt d)) (hidx : Live d idx) (hino : ino < 65536)
    (hlen : old.name.length = nameLen name) (hrun : writeEntry (layout total) d idx (inodeAt d idx)
      (1024 * before.length + direntFormat.span pre) ino name ft = .ok (r, d')) : r = .ok () ∧
      Laid d' (inodeAt d' idx) (before ++ (pre ++ newEntry ino name ft :: post) :: after) ∧
      inodeAt d' idx = inodeAt d idx := by
  have hold := h.at
  have hend := hold.end_le
  have hcover := h.covers.1
  have hsize : direntFormat.size old = 5 + old.name.length := rfl
  rw [Format.span_append, Format.span_cons] at hcover
  have hdiv : (1024 * before.length + direntFormat.span pre) / 1024 = before.length := by omega
  have hmod : (1024 * before.length + direntFormat.span pre) % 1024 = direntFormat.span pre := by
    omega
  obtain ⟨hr, hin, hd'⟩ := writeEntry_blit hsound hidx (by rw [hdiv]; exact h.mapped_at) (by omega) hrun
  rw [hdiv, hmod] at hd'
  rw [hmod] at hin
  obtain ⟨hrec, -⟩ := bmap_edit
    (a := 1024 * jexfsBmap d (inodeAt d idx) before.length + direntFormat.span pre)
    (n := 5 + nameLen name) (dirent ino name ft) hsound hidx h.mapped_at (by omega) (by omega)
  subst hd'
  refine ⟨hr, h.blit _ _ hsound hidx hin ?_ (.inr ⟨by simp, ?_⟩), hrec⟩
  · refine hold.replace hino (newEntry_length.trans hlen.symm) (fun k hk => ?_) fun k hk _ => ?_
    · rw [hlen] at hk
      rw [readBlock_blit, blit_add hk]
      exact dirent_newEntry hk
    · rw [hlen] at hk
      rw [readBlock_blit]
      rcases hk with hlt | hge
      · exact blit_of_lt hlt
      · exact blit_of_ge hge
  · have hnew : direntFormat.size (newEntry ino name ft) = 5 + nameLen name := congrArg (5 + ·) newEntry_length
    simp only [Format.span_append, Format.span_cons]
    omega

theorem writeEntry_append (h : Laid d (inodeAt d idx) (before ++ es :: after))
    (hsound : Sound d (inodeAt d)) (hidx : Live d idx) (hino : ino < 65536) (hname : nameLen name ≠ 0)
    (hspan : direntFormat.span es < 1024)
    (hsize : (inodeAt d idx).size.toNat = 1024 * (before ++ es :: after).length)
    (hrun : writeEntry (layout total) d idx (inodeAt d idx)
      (1024 * before.length + direntFormat.span es) ino name ft = .ok (r, d')) :
    r = .ok () ∧ direntFormat.span es + (5 + nameLen name) ≤ 1024 ∧
      Laid d' (inodeAt d' idx) (before ++ (es ++ [newEntry ino name ft]) :: after) ∧
      inodeAt d' idx = inodeAt d idx := by
  have hdiv : (1024 * before.length + direntFormat.span es) / 1024 = before.length := by omega
  have hmod : (1024 * before.length + direntFormat.span es) % 1024 = direntFormat.span es := by
    omega
  have hview : Sound d (view d idx (inodeAt d idx)) := by rwa [view_inodeAt]
  have hmapped := h.mapped_at
  have hlength : (before ++ es :: after).length = before.length + 1 + after.length := by
    rw [length_append, length_cons]
    omega
  have hin : direntFormat.span es + (5 + nameLen name) ≤ 1024 := by
    rcases writeEntry_cases hview hidx hrun with ⟨hzero, -⟩ | ⟨-, -, hin, -⟩
    · rw [hdiv] at hzero
      exact absurd hzero hmapped
    · rwa [hmod] at hin
  obtain ⟨hr, -, hd'⟩ := writeEntry_blit hsound hidx (by rw [hdiv]; exact hmapped) (by omega) hrun
  rw [hdiv, hmod] at hd'
  obtain ⟨hrec, -⟩ := bmap_edit
    (a := 1024 * jexfsBmap d (inodeAt d idx) before.length + direntFormat.span es)
    (n := 5 + nameLen name) (dirent ino name ft) hsound hidx h.mapped_at (by omega) (by omega)
  subst hd'
  have hnewLen : (newEntry ino name ft).name.length = nameLen name := newEntry_length
  refine ⟨hr, hin, h.blit _ _ hsound hidx hin ?_ (.inl hsize), hrec⟩
  refine h.at.append hino (fun hnil => hname ?_) (by omega) (fun k hk => ?_) fun k hk _ => ?_
  · rw [← hnewLen, hnil, length_nil]
  · rw [hnewLen] at hk
    rw [readBlock_blit, blit_add hk]
    exact dirent_newEntry hk
  · rw [hnewLen] at hk
    rw [readBlock_blit]
    rcases hk with hlt | hge
    · exact blit_of_lt hlt
    · exact blit_of_ge hge

theorem Grown.laid {lb : Nat} {di' : Inode} (h : Grown total idx d di lb di' d')
    (hlaid : Laid d di blocks) (hlt : lb < 520)
    (hclear : ∀ k, k < 1024 → d (1024 * jexfsBmap d' di' lb + k) = 0) :
    lb = blocks.length ∧ Laid d' di' (blocks ++ [[]]) ∧ di'.size.toNat = 1024 * (blocks ++ [[]]).length := by
  have hlb : lb = blocks.length := by
    obtain ⟨-, hhole, hmapped⟩ := h.hole
    rcases lt_trichotomy lb blocks.length with hbelow | heq | habove
    · exact absurd hhole ((hlaid.mapped lb).mpr hbelow)
    · exact heq
    · have := (hlaid.mapped blocks.length).mp (hmapped _ habove)
      omega
  have hsized : di'.size.toNat = 1024 * (blocks ++ [[]]).length := by
    have hle := hlaid.size_le
    rw [h.sized, length_append, length_singleton, hlb]
    omega
  refine ⟨hlb, ⟨fun l => ?_, fun l es hes => ?_, .inl hsized⟩, hsized⟩
  · rw [length_append, length_singleton]
    by_cases heq : l = lb
    · have hmapped := h.linked hlt
      subst heq
      exact ⟨fun _ => by omega, fun _ => hmapped⟩
    · rw [h.others hlt l heq, hlaid.mapped]
      omega
  · rcases lt_trichotomy l lb with hbelow | heq | habove
    · rw [getElem?_append_left (by omega)] at hes
      rw [h.others hlt l (by omega)]
      exact (hlaid.block l es hes).congr fun k hk => h.contents l hbelow k hk
    · subst heq
      rw [hlb, getElem?_append_right le_rfl, Nat.sub_self, getElem?_cons_zero, some.injEq] at hes
      subst hes
      exact Block.nil fun k hk => (h.uncleared hlt k hk).trans (hclear k hk)
    · have hnone := (List.getElem?_eq_some_iff.mp hes).1
      rw [length_append, length_singleton] at hnone
      omega

theorem findSlot_long {len : Nat} {r : Option Nat} (hlen : 1019 < len)
    (hrun : findSlot d di len = .ok r) : r = none := by
  obtain ⟨c, hc, hleave⟩ := run_invariant (P := fun c => c.block = none) (fun c t hc hbody => by
    unfold slotBody at hbody
    rw [hc] at hbody
    dsimp only at hbody
    split at hbody
    · rw [if_pos (.inl (by omega))] at hbody
      cases hbody
      rfl
    · cases hbody) rfl hrun
  unfold slotBody at hleave
  rw [hc] at hleave
  dsimp only at hleave
  split at hleave
  · rw [if_pos (.inl (by omega))] at hleave
    cases hleave
  · cases hleave
    rfl

theorem dirAgree_of_same (h : Sound d (inodeAt d)) (hidx : Live d idx)
    (hsame : ∀ k, 11264 ≤ k → k < 55296 ∨ Used d (k / 1024) → d' k = d k) :
    inodeAt d' idx = inodeAt d idx ∧ DirAgree d d' (inodeAt d idx) := by
  have hview : Sound d (view d idx (inodeAt d idx)) := by rwa [view_inodeAt]
  have hplaced := hview.placed hidx
  have hlt := hidx.1
  have hblock : ∀ {b}, Used d b → ∀ k, k < 1024 → d' (1024 * b + k) = d (1024 * b + k) := by
    intro b hb k hk
    have hge := hb.1
    exact hsame _ (by omega) (.inr (by rwa [show (1024 * b + k) / 1024 = b by omega]))
  refine ⟨inodeAt_congr fun k _ _ => hsame k (by omega) (.inl (by omega)), ?_, ?_⟩
  · exact bmap_congr fun l => slotBlock_congr fun t _ ht k hk => hblock (hplaced.used t ht) k hk
  · exact fun lb hlb k hk => hblock (hplaced.bmap_used hlb) k hk

theorem addDirent_laid (h : Laid d (inodeAt d idx) blocks)
    (hsound : Sound d (inodeAt d)) (hidx : Live d idx) (hino : ino < 65536) (hname : nameLen name ≠ 0)
    (heven : AddsEvenly total d idx (nameLen name) 0)
    (hrun : jexfsAddDirent (layout total) d idx ino name ft = .ok (r, d')) :
    (∃ e, r = .error e ∧ Laid d' (inodeAt d' idx) blocks) ∨
      (r = .ok () ∧ ∃ blocks', Adds (inodeAt d idx) (newEntry ino name ft) blocks blocks' ∧
        Laid d' (inodeAt d' idx) blocks' ∧
        (inodeAt d' idx = inodeAt d idx ∨ blocks'.length = blocks.length + 1)) := by
  have hview : Sound d (view d idx (inodeAt d idx)) := by rwa [view_inodeAt]
  simp only [jexfsAddDirent, bind_eq_ok] at hrun
  obtain ⟨di, hread, hrun⟩ := hrun
  rcases readInode_cases hread with ⟨hge, -⟩ | ⟨-, -, rfl⟩
  · exact absurd hidx.1 (by omega)
  split at hrun
  · cases hrun
    exact .inl ⟨_, rfl, h⟩
  simp only [bind_eq_ok] at hrun
  obtain ⟨slot, hslot, hrun⟩ := hrun
  cases slot with
  | some off =>
    have hlen : nameLen name ≤ 1019 := by
      by_contra hlong
      cases findSlot_long (by omega) hslot
    have hold := heven.reuse off hslot
    have hout := (sweeps_slot h hlen).outcome h (by decide) hslot
    generalize hoff : some off = found at hout
    cases hout with
    | found before after pre post old hblocks hpassed hpre he =>
      cases hoff
      subst hblocks
      have hend := h.at.end_le
      have hdiv : (1024 * before.length + direntFormat.span pre) / 1024 = before.length := by
        omega
      have hmod : (1024 * before.length + direntFormat.span pre) % 1024 = direntFormat.span pre := by omega
      rw [hdiv, hmod, h.at.length] at hold
      have hequal : old.name.length = nameLen name := hold.antisymm he.2
      obtain ⟨rfl, hlaid, hrec⟩ := writeEntry_reuse h hsound hidx hino hequal hrun
      exact .inr ⟨rfl, _, .reuse before after pre post old (fun es hes => (hpassed es hes).1) he.1
        (hequal.trans newEntry_length.symm), hlaid, .inl hrec⟩
    | marker before after es hblocks hpassed hes hroom hsize =>
      cases hoff
      subst hblocks
      obtain ⟨rfl, -, hlaid, hrec⟩ := writeEntry_append h hsound hidx hino hname (by omega) hsize hrun
      refine .inr ⟨rfl, _, .append before after es (fun es hes => (hpassed es hes).1) hroom hsize
        ?_, hlaid, .inl hrec⟩
      rw [newEntry_length]
      exact markerSlot_passed _ (by decide) hpassed hes hroom
    | nothing _ _ => cases hoff
  | none =>
    obtain ⟨hhole, hclear⟩ := heven.grow hslot
    simp only [bind_eq_ok] at hrun
    obtain ⟨⟨g, d₁⟩, hgrow, hrun⟩ := hrun
    cases g with
    | error e =>
      cases hrun
      obtain ⟨hrec, hagree⟩ := dirAgree_of_same hsound hidx fun k hk hused =>
        growDir_same hview hidx hhole hgrow hk hused
      rw [hrec]
      exact .inl ⟨e, rfl, h.congr hagree⟩
    | ok p =>
      obtain ⟨off, di'⟩ := p
      obtain ⟨-, lb, rfl, hgrown⟩ := growDir_ok hview hidx hgrow
      have hlt : lb < 520 := by
        by_contra hge
        exact hgrown.hole.2.2 519 (by omega) hhole
      have hseven : jexfsBmap d (inodeAt d idx) 7 ≠ 0 ↔ 8 ≤ lb := by
        obtain ⟨-, hempty, hmapped⟩ := hgrown.hole
        rw [h.mapped]
        have hlength := h.mapped lb
        refine ⟨fun hlong => ?_, fun hge => (h.mapped 7).mp (hmapped 7 (by omega))⟩
        omega
      obtain ⟨hfree, hbefore⟩ := hgrown.taken hlt
      obtain ⟨hlb, hlaid, hsize⟩ :=
        hgrown.laid h hlt (hclear _ hfree (by simp only [hbefore, hseven, Nat.zero_add]))
      have hidx' := (hgrown.works.live idx).mpr hidx
      have hsound' := hgrown.works.sound
      have hrec := hgrown.record
      rw [← hrec, view_inodeAt] at hsound'
      rw [← hrec] at hlaid hsize hrun
      have hrun' : writeEntry (layout total) d₁ idx (inodeAt d₁ idx)
          (1024 * blocks.length + direntFormat.span []) ino name ft = .ok (r, d') := by
        rw [hlb, Nat.mul_comm] at hrun
        exact hrun
      obtain ⟨rfl, hin, hlaid', -⟩ := writeEntry_append hlaid hsound' hidx' hino hname (by decide) hsize hrun'
      have hlen : nameLen name ≤ 1019 := by
        omega
      have hout := (sweeps_slot h hlen).outcome h (by decide) hslot
      generalize hoff : (none : Option Nat) = found at hout
      cases hout with
      | found before after pre post old _ _ _ _ => cases hoff
      | marker before after es _ _ _ _ _ => cases hoff
      | nothing hnone hfull =>
        rw [← newEntry_length] at hnone
        exact .inr ⟨rfl, _, .grow blocks hfull hnone, hlaid', .inr (by simp)⟩

end Enter

end JexOs.JexFs
