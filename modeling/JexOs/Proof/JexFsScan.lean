import JexOs.Proof.JexFsDir
import Mathlib.Algebra.BigOperators.Intervals
import Mathlib.Algebra.Order.BigOperators.Group.Finset

/-!
# When the scans of a directory end

Every scan of a directory follows one walk, which gets stuck in two places: in the last bytes of a block, where no
entry fits, and at an entry whose `name_len` is 65531, whose size wraps to 0.
-/

namespace JexOs.JexFs

open ByteMem Loop Finset

/-- The inner loop of a scan goes on: five bytes are left of the block, and the directory does not
end before. -/
def Cursor.Inside (c : Cursor) (di : Inode) (bo : Nat) : Prop :=
  bo + 5 ≤ 1024 ∧ c.off < di.size.toNat

def EndMarker (d : Mem) (phys bo : Nat) : Prop :=
  load16 (readBlock d phys) bo = 0 ∧ load16 (readBlock d phys) (bo + 2) = 0

inductive Step (d : Mem) (di : Inode) : Cursor → Cursor → Prop
  | enter (c : Cursor) : c.block = none → c.off + 5 ≤ di.size.toNat →
      jexfsBmap d di (c.off / 1024) ≠ 0 →
      Step d di c { c with block := some (jexfsBmap d di (c.off / 1024), c.off % 1024) }
  | skip (c : Cursor) (phys bo : Nat) : c.block = some (phys, bo) → c.Inside di bo →
      ¬EndMarker d phys bo → Step d di c (c.skip d phys bo)
  | exit (c : Cursor) (phys bo : Nat) : c.block = some (phys, bo) → ¬c.Inside di bo →
      Step d di c { c with block := none }

def Visits (d : Mem) (di : Inode) : Cursor → Prop := Relation.ReflTransGen (Step d di) Cursor.start

/-- From here the scan gets no further. -/
def Trap (d : Mem) (di : Inode) (c : Cursor) : Prop :=
  match c.block with
  | none => c.off + 5 ≤ di.size.toNat ∧ jexfsBmap d di (c.off / 1024) ≠ 0 ∧ 1019 < c.off % 1024
  | some (phys, bo) =>
    c.Inside di bo ∧ ¬EndMarker d phys bo ∧ load16 (readBlock d phys) (bo + 2) = 65531

structure Scans {σ ρ : Type} (d : Mem) (di : Inode) (cursor : σ → Cursor)
    (body : σ → Except Fault (Pass σ ρ)) : Prop where
  step : ∀ s t, body s = .ok (.again t) → Step d di (cursor s) (cursor t)
  enter : ∀ s, (cursor s).block = none → (cursor s).off + 5 ≤ di.size.toNat →
    jexfsBmap d di ((cursor s).off / 1024) ≠ 0 → ∃ t, body s = .ok (.again t)
  exit : ∀ s phys bo, (cursor s).block = some (phys, bo) → ¬(cursor s).Inside di bo →
    ∃ t, body s = .ok (.again t)
  same : ∀ s s' t, cursor s' = cursor s → body s = .ok (.again t) → ∃ t', body s' = .ok (.again t')
  fault : ∀ s, body s ≠ .error .diverges

section Walk

variable {d : Mem} {di : Inode} {c t : Cursor}

def lag (di : Inode) (c : Cursor) : Nat :=
  match c.block with
  | none => 2
  | some (_, bo) => if bo + 5 ≤ 1024 ∧ c.off < di.size.toNat then 1 else 3

theorem lag_none (h : c.block = none) : lag di c = 2 := by
  simp only [lag, h]

theorem lag_inside {phys bo : Nat} (h : c.block = some (phys, bo)) (hin : c.Inside di bo) : lag di c = 1 := by
  simp only [lag, h]
  exact if_pos hin

theorem lag_outside {phys bo : Nat} (h : c.block = some (phys, bo)) (hout : ¬c.Inside di bo) :
    lag di c = 3 := by
  simp only [lag, h]
  exact if_neg hout

theorem lag_le (di : Inode) (c : Cursor) : lag di c ≤ 3 := by
  cases hblock : c.block with
  | none =>
    rw [lag_none hblock]
    decide
  | some p =>
    by_cases hin : c.Inside di p.2
    · rw [lag_inside hblock hin]
      decide
    · rw [lag_outside hblock hin]

def distance (di : Inode) (c : Cursor) : Nat := 3 * (di.size.toNat - c.off) + lag di c

theorem Step.distance_lt (h : Step d di c t) (htrap : ¬Trap d di c) : distance di t < distance di c := by
  unfold distance
  cases h with
  | enter hnone hmore hmapped =>
    simp only [Trap, hnone] at htrap
    have hin : Cursor.Inside { c with
        block := some (jexfsBmap d di (c.off / 1024), c.off % 1024) } di (c.off % 1024) := by
      refine ⟨?_, Nat.lt_of_lt_of_le (by dsimp only; omega) hmore⟩
      by_contra hlate
      exact htrap ⟨hmore, hmapped, by omega⟩
    rw [lag_none hnone, lag_inside rfl hin]
    dsimp only
    omega
  | skip phys bo hblock hin hend =>
    have hlen : load16 (readBlock d phys) (bo + 2) ≠ 65531 := by
      intro hlen
      refine htrap ?_
      simp only [Trap, hblock]
      exact ⟨hin, hend, hlen⟩
    have hsize : 0 < (5 + load16 (readBlock d phys) (bo + 2)) % 65536 := by
      have := load16_lt (readBlock d phys) (bo + 2)
      omega
    have hle := lag_le di (c.skip d phys bo)
    have hoff := hin.2
    have hnext : (c.skip d phys bo).off = c.off + (5 + load16 (readBlock d phys) (bo + 2)) % 65536 := rfl
    rw [lag_inside hblock hin, hnext]
    omega
  | exit phys bo hblock hout =>
    rw [lag_outside hblock hout, lag_none rfl]
    dsimp only
    omega

theorem Trap.returns (h : Trap d di c) : (∃ phys bo, c.block = some (phys, bo) ∧ c.skip d phys bo = c) ∨
      (c.block = none ∧ ∀ t, Step d di c t → ∃ phys bo, t.block = some (phys, bo) ∧
        ¬t.Inside di bo ∧ { t with block := none } = c) := by
  obtain ⟨block, off⟩ := c
  cases block with
  | none =>
    right
    simp only [Trap] at h
    refine ⟨rfl, fun t ht => ?_⟩
    cases ht with
    | enter _ _ _ =>
      refine ⟨_, _, rfl, fun hin => ?_, rfl⟩
      have := hin.1
      dsimp only at this
      omega
    | skip _ _ hblock _ _ => cases hblock
    | exit _ _ hblock _ => cases hblock
  | some p =>
    obtain ⟨phys, bo⟩ := p
    left
    refine ⟨phys, bo, rfl, ?_⟩
    simp only [Cursor.skip, h.2.2]
    rfl

theorem Scans.stuck {σ ρ : Type} {cursor : σ → Cursor} {body : σ → Except Fault (Pass σ ρ)}
    (h : Scans d di cursor body) {s t : σ} (htrap : Trap d di (cursor s))
    (hagain : body s = .ok (.again t)) (n : Nat) : run .diverges body n s = .error .diverges := by
  have hback := htrap.returns
  refine run_stuck (Q := fun u => cursor u = cursor s ∨ ∃ phys bo, (cursor u).block = some (phys, bo) ∧
    ¬(cursor u).Inside di bo ∧ { cursor u with block := none } = cursor s) (fun u hu => ?_) n (.inl rfl)
  rcases hu with hsame | ⟨phys, bo, hblock, hout, hnext⟩
  · obtain ⟨w, hw⟩ := h.same s u t hsame hagain
    have hstep := h.step u w hw
    rw [hsame] at hstep
    refine ⟨w, hw, ?_⟩
    rcases hback with ⟨phys, bo, hblock, hskip⟩ | ⟨-, hnext⟩
    · left
      simp only [Trap, hblock] at htrap
      generalize cursor w = v at *
      cases hstep with
      | enter hnone _ _ =>
        rw [hblock] at hnone
        cases hnone
      | skip _ _ hblock' _ _ =>
        rw [hblock] at hblock'
        cases hblock'
        exact hskip
      | exit _ _ hblock' hout =>
        rw [hblock] at hblock'
        cases hblock'
        exact absurd htrap.1 hout
    · exact .inr (hnext _ hstep)
  · obtain ⟨w, hw⟩ := h.exit u phys bo hblock hout
    have hstep := h.step u w hw
    refine ⟨w, hw, .inl ?_⟩
    generalize cursor w = v at *
    cases hstep with
    | enter hnone _ _ =>
      rw [hblock] at hnone
      cases hnone
    | skip _ _ hblock' hin _ =>
      rw [hblock] at hblock'
      cases hblock'
      exact absurd hin hout
    | exit _ _ _ _ => exact hnext

theorem Scans.fuel {σ ρ : Type} {cursor : σ → Cursor} {body : σ → Except Fault (Pass σ ρ)}
    (h : Scans d di cursor body) {s : σ} (hs : cursor s = Cursor.start)
    (hfree : ∀ u t, Reach body s u → body u = .ok (.again t) → ¬Trap d di (cursor u)) :
    run .diverges body (scanFuel di) s ≠ .error .diverges := by
  refine run_ne_stuck (P := Reach body s) (μ := fun u => distance di (cursor u)) h.fault
    (fun u t hu hbody => ⟨hu.tail hbody, ?_⟩) .refl ?_
  · exact (h.step u t hbody).distance_lt (hfree u t hu hbody)
  · rw [hs]
    have hle := lag_le di Cursor.start
    unfold distance scanFuel
    omega

theorem Scans.visits {σ ρ : Type} {cursor : σ → Cursor} {body : σ → Except Fault (Pass σ ρ)}
    (h : Scans d di cursor body) {s u : σ} (hs : cursor s = Cursor.start) (hu : Reach body s u) :
    Visits d di (cursor u) := by
  induction hu with
  | refl =>
    rw [hs]
    exact .refl
  | tail _ hbody ih => exact ih.tail (h.step _ _ hbody)

theorem Scans.ends {σ ρ : Type} {cursor : σ → Cursor} {body : σ → Except Fault (Pass σ ρ)}
    (h : Scans d di cursor body) {s : σ} (hs : cursor s = Cursor.start)
    (hfree : ∀ c, Visits d di c → ¬Trap d di c) : Ends .diverges body s :=
  ⟨_, h.fuel hs fun _ _ hu _ => hfree _ (h.visits hs hu)⟩

end Walk

section Bodies

variable {d : Mem} {di : Inode} {name : Name}

theorem sameBytes_ne_diverges (buf : Mem) (pos : Nat)
    (name : Name) : sameBytes buf pos name ≠ .error .diverges := by
  induction name generalizing pos with
  | nil =>
    intro h
    cases h
  | cons c cs ih =>
    unfold sameBytes
    split
    · intro h
      cases h
    · split
      · exact ih (pos + 1)
      · intro h
        cases h

theorem entryMatches_ne_diverges (buf : Mem) (bo : Nat) (name : Name) :
    entryMatches buf bo name ≠ .error .diverges := by
  unfold entryMatches
  split
  · exact sameBytes_ne_diverges _ _ _
  · exact nofun

theorem bind_eq_error {ε α β : Type} {x : Except ε α} {f : α → Except ε β} {e : ε} :
    x >>= f = .error e ↔ x = .error e ∨ ∃ a, x = .ok a ∧ f a = .error e := by
  cases x with
  | error e' =>
    refine ⟨fun h => ?_, fun h => ?_⟩
    · cases h
      exact .inl rfl
    · rcases h with h | ⟨a, h, -⟩
      · cases h
        rfl
      · cases h
  | ok a =>
    refine ⟨fun h => .inr ⟨a, rfl, h⟩, fun h => ?_⟩
    rcases h with h | ⟨a', h, hf⟩
    · cases h
    · cases h
      exact hf

theorem scans_search : Scans d di id (searchBody d di name) where
  step := by
    intro s t hbody
    unfold searchBody at hbody
    split at hbody
    · rename_i hblock
      split at hbody
      · rename_i hmore
        dsimp only at hbody
        split at hbody
        · cases hbody
        · rename_i hmapped
          cases hbody
          exact .enter _ hblock hmore hmapped
      · cases hbody
    · rename_i phys bo hblock
      split at hbody
      · rename_i hin
        dsimp only at hbody
        split at hbody
        · cases hbody
        · rename_i hend
          rw [bind_eq_ok] at hbody
          obtain ⟨b, -, hbody⟩ := hbody
          split at hbody
          · cases hbody
          · cases hbody
            exact .skip _ phys bo hblock hin hend
      · rename_i hout
        cases hbody
        exact .exit _ phys bo hblock hout
  enter := by
    intro s hblock hmore hmapped
    unfold searchBody
    simp only [id] at hblock hmore hmapped
    rw [hblock]
    dsimp only
    rw [if_pos hmore, if_neg hmapped]
    exact ⟨_, rfl⟩
  exit := by
    intro s phys bo hblock hout
    unfold searchBody
    simp only [id] at hblock hout
    rw [hblock]
    dsimp only
    rw [if_neg (show ¬(bo + 5 ≤ 1024 ∧ s.off < di.size.toNat) from hout)]
    exact ⟨_, rfl⟩
  same := by
    rintro s s' t rfl hbody
    exact ⟨t, hbody⟩
  fault := by
    intro s hbody
    unfold searchBody at hbody
    split at hbody
    · split at hbody
      · dsimp only at hbody
        split at hbody <;> cases hbody
      · cases hbody
    · split at hbody
      · dsimp only at hbody
        split at hbody
        · cases hbody
        · rw [bind_eq_error] at hbody
          obtain hmatch | ⟨b, -, hbody⟩ := hbody
          · exact entryMatches_ne_diverges _ _ _ hmatch
          · split at hbody <;> cases hbody
      · cases hbody

theorem listedEntry_ne_diverges (buf : Mem) (bo : Nat) : listedEntry buf bo ≠ .error .diverges := by
  unfold listedEntry
  dsimp only
  split
  · exact nofun
  · split
    · exact nofun
    · split <;> exact nofun

theorem scans_list : Scans d di Listing.cursor (listBody d di) where
  step := by
    intro s t hbody
    unfold listBody at hbody
    dsimp only at hbody
    split at hbody
    · rename_i hblock
      split at hbody
      · rename_i hmore
        split at hbody
        · cases hbody
        · rename_i hmapped
          cases hbody
          exact .enter _ hblock hmore hmapped
      · cases hbody
    · rename_i phys bo hblock
      split at hbody
      · rename_i hin
        split at hbody
        · cases hbody
        · rename_i hend
          rw [bind_eq_ok] at hbody
          obtain ⟨entry, -, hbody⟩ := hbody
          cases hbody
          exact .skip _ phys bo hblock hin hend
      · rename_i hout
        cases hbody
        exact .exit _ phys bo hblock hout
  enter := by
    intro s hblock hmore hmapped
    unfold listBody
    dsimp only
    rw [hblock]
    dsimp only
    rw [if_pos hmore, if_neg hmapped]
    exact ⟨_, rfl⟩
  exit := by
    intro s phys bo hblock hout
    unfold listBody
    dsimp only
    rw [hblock]
    dsimp only
    rw [if_neg (show ¬(bo + 5 ≤ 1024 ∧ s.cursor.off < di.size.toNat) from hout)]
    exact ⟨_, rfl⟩
  same := by
    intro s s' t hsame hbody
    unfold listBody at hbody ⊢
    rw [hsame]
    dsimp only at hbody ⊢
    cases hblock : s.cursor.block with
    | none =>
      rw [hblock] at hbody
      dsimp only at hbody ⊢
      split at hbody
      · rename_i hmore
        rw [if_pos hmore]
        split at hbody
        · cases hbody
        · rename_i hmapped
          rw [if_neg hmapped]
          exact ⟨_, rfl⟩
      · cases hbody
    | some p =>
      obtain ⟨phys, bo⟩ := p
      rw [hblock] at hbody
      dsimp only at hbody ⊢
      split at hbody
      · rename_i hin
        rw [if_pos hin]
        split at hbody
        · cases hbody
        · rename_i hend
          rw [if_neg hend]
          rw [bind_eq_ok] at hbody
          obtain ⟨entry, hentry, -⟩ := hbody
          rw [hentry]
          exact ⟨_, rfl⟩
      · rename_i hout
        rw [if_neg hout]
        exact ⟨_, rfl⟩
  fault := by
    intro s hbody
    unfold listBody at hbody
    dsimp only at hbody
    split at hbody
    · split at hbody
      · split at hbody <;> cases hbody
      · cases hbody
    · split at hbody
      · split at hbody
        · cases hbody
        · rw [bind_eq_error] at hbody
          obtain hentry | ⟨entry, -, hbody⟩ := hbody
          · exact listedEntry_ne_diverges _ _ hentry
          · cases hbody
      · cases hbody

theorem search_skip {c : Cursor} {phys bo : Nat} (hblock : c.block = some (phys, bo))
    (hin : c.Inside di bo) (hend : ¬EndMarker d phys bo)
    (hlen : load16 (readBlock d phys) (bo + 2) ≠ nameLen name) :
    searchBody d di name c = .ok (.again (c.skip d phys bo)) := by
  have hmatch : entryMatches (readBlock d phys) bo name = .ok false := if_neg fun h => hlen h.2
  unfold searchBody
  rw [hblock]
  dsimp only
  rw [if_pos (show bo + 5 ≤ 1024 ∧ c.off < di.size.toNat from hin),
    if_neg (show ¬(load16 (readBlock d phys) bo = 0 ∧ load16 (readBlock d phys) (bo + 2) = 0) from hend),
    hmatch]
  rfl

def Near (c : Cursor) : Prop :=
  c.off ≤ 269033466 ∧ ∀ phys bo, c.block = some (phys, bo) → ∃ lb, lb < 262664 ∧
    c.off = 1024 * lb + bo

theorem Visits.near {c : Cursor} (h : Visits d di c) : Near c := by
  induction h with
  | refl => exact ⟨Nat.zero_le _, fun _ _ hblock => (by cases hblock)⟩
  | tail _ hstep ih =>
    obtain ⟨hoff, hin⟩ := ih
    cases hstep with
    | enter _ _ hmapped =>
      refine ⟨hoff, fun phys bo hblock => ?_⟩
      obtain ⟨-, rfl⟩ := hblock
      exact ⟨_, Nat.lt_of_not_le fun hge => hmapped (bmap_past hge), (Nat.div_add_mod _ 1024).symm⟩
    | skip phys bo hblock hinside _ =>
      obtain ⟨lb, hlb, heq⟩ := hin phys bo hblock
      have hbo := hinside.1
      refine ⟨?_, fun phys' bo' hblock' => ?_⟩
      · simp only [Cursor.skip]
        omega
      · simp only [Cursor.skip, Option.some.injEq, Prod.mk.injEq] at hblock' ⊢
        exact ⟨lb, hlb, by omega⟩
    | exit _ _ _ _ => exact ⟨hoff, fun _ _ hblock => (by cases hblock)⟩

theorem Visits.lengths {c : Cursor} (h : Visits d di c) :
    ∃ lengths : Finset Nat, ∑ len ∈ lengths, (5 + len) ≤ c.off ∧
      ∀ name : Name, nameLen name < 65531 → nameLen name ∉ lengths →
      Reach (searchBody d di name) Cursor.start c := by
  induction h with
  | refl => exact ⟨∅, by simp, fun _ _ _ => .refl⟩
  | @tail c t _ hstep ih =>
    obtain ⟨lengths, hsum, hreach⟩ := ih
    cases hstep with
    | enter hblock hmore hmapped =>
      refine ⟨lengths, hsum, fun name hshort hnew => (hreach name hshort hnew).tail ?_⟩
      unfold searchBody
      rw [hblock]
      rw [if_pos hmore, if_neg hmapped]
    | skip phys bo hblock hin hend =>
      by_cases hlong : 65531 ≤ load16 (readBlock d phys) (bo + 2)
      · refine ⟨lengths, hsum.trans (Nat.le_add_right _ _), fun name hshort hnew => ?_⟩
        exact (hreach name hshort hnew).tail (search_skip hblock hin hend (by omega))
      · refine ⟨insert (load16 (readBlock d phys) (bo + 2)) lengths, ?_, fun name hshort hnew => ?_⟩
        · have hnext : (c.skip d phys bo).off = c.off + (5 + load16 (readBlock d phys) (bo + 2)) % 65536 := rfl
          by_cases hold : load16 (readBlock d phys) (bo + 2) ∈ lengths
          · rw [insert_eq_of_mem hold]
            omega
          · rw [sum_insert hold]
            omega
        · rw [mem_insert, not_or] at hnew
          exact (hreach name hshort hnew.2).tail (search_skip hblock hin hend (Ne.symm hnew.1))
    | exit phys bo hblock hout =>
      refine ⟨lengths, hsum, fun name hshort hnew => (hreach name hshort hnew).tail ?_⟩
      unfold searchBody
      rw [hblock]
      dsimp only
      rw [if_neg (show ¬(bo + 5 ≤ 1024 ∧ c.off < di.size.toNat) from hout)]

theorem exists_length {lengths : Finset Nat} (h : ∑ len ∈ lengths, (5 + len) ≤ 269033466) :
    ∃ len, len < 65531 ∧ len ∉ lengths := by
  by_contra hall
  have hsub : Finset.range 65531 ⊆ lengths := by
    intro len hlen
    by_contra hnot
    exact hall ⟨len, mem_range.mp hlen, hnot⟩
  have hle := sum_le_sum_of_subset (f := fun len => len) hsub
  have hmore : ∑ len ∈ lengths, len ≤ ∑ len ∈ lengths, (5 + len) := sum_le_sum fun len _ =>
    Nat.le_add_left len 5
  have hgauss := sum_range_id_mul_two 65531
  omega

theorem nameLen_replicate {len : Nat} (h : len < 65536) : nameLen (List.replicate len 97) = len := by
  unfold nameLen
  rw [List.length_replicate, Nat.mod_eq_of_lt h]

theorem Trap.again {c : Cursor} (h : Trap d di c) (hshort : nameLen name < 65531) :
    ∃ t, searchBody d di name c = .ok (.again t) := by
  cases hblock : c.block with
  | none =>
    simp only [Trap, hblock] at h
    exact scans_search.enter c hblock h.1 h.2.1
  | some p =>
    simp only [Trap, hblock] at h
    exact ⟨_, search_skip hblock h.1 h.2.1 (by omega)⟩

/-- The scans of `jexfs_find_entry`, `jexfs_remove` and `jexfs_rename`, for whatever name, and that of
`jexfs_list_dir` end. -/
structure ScansEnd (d : Mem) (di : Inode) : Prop where
  search : ∀ name, Ends .diverges (searchBody d di name) Cursor.start
  list : Ends .diverges (listBody d di) { cursor := Cursor.start, printed := [] }

/-- The scans end exactly where the cursor meets no trap. -/
theorem scansEnd_iff (d : Mem) (di : Inode) : ScansEnd d di ↔ ∀ c, Visits d di c → ¬Trap d di c := by
  constructor
  · intro hends c hvisits htrap
    obtain ⟨lengths, hsum, hreach⟩ := hvisits.lengths
    obtain ⟨len, hlen, hnew⟩ := exists_length (hsum.trans hvisits.near.1)
    have hname := nameLen_replicate (show len < 65536 by omega)
    have hpath := hreach (List.replicate len 97) (by rwa [hname]) (by rwa [hname])
    obtain ⟨t, hagain⟩ := htrap.again (by rwa [hname])
    exact not_ends_of_reach hpath (scans_search.stuck htrap hagain) (hends.search _)
  · intro hfree
    exact
      { search := fun _ => scans_search.ends rfl hfree
        list := scans_list.ends rfl hfree }

/-- A directory block that begins with a deleted entry whose `name_len` is 65531. -/
def endlessBlock : Mem := blit zeroBlock (1024 * 54) 4 fun k => [0, 0, 0xFB, 0xFF].getD k 0

theorem not_scansEnd_endless : ¬ScansEnd endlessBlock
    { Inode.zero with
      mode := 0x2
      size := 1024
      directBlocks := Function.update (fun _ => 0) 0 54 } := by
  intro hends
  refine not_ends_of_reach (t := { block := some (54, 0), off := 0 }) (.single rfl)
    (scans_search.stuck ?_ (t := { block := some (54, 0), off := 0 }) ?_) (hends.search [97])
  · exact ⟨⟨by decide, by decide⟩, fun hend => absurd hend.2 (by decide), by decide⟩
  · rfl

end Bodies

end JexOs.JexFs
