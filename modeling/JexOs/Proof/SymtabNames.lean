import JexOs.Proof.SymtabScope

/-!
# Names in the symbol table

`strncpy` byte by byte. When the count runs out before the string does, the first loop leaves it at its largest
value, and the second writes that many zeros.
-/

namespace JexOs.Tcc

open X86 (Byte)
open List Option

def paddedName (src : CString) (n : Nat) : List Byte :=
  src.take n ++ List.replicate (n - src.length) 0

theorem length_paddedName (src : CString) (n : Nat) : (paddedName src n).length = n := by
  unfold paddedName
  rw [length_append, length_take, length_replicate]
  omega

theorem strncpyCopy_eq (src : CString) (n : Nat) : strncpyCopy src n =
      if src.length < n then (src ++ [0], n - src.length - 1) else (src.take n, 2 ^ 32 - 1) := by
  induction n generalizing src with
  | zero =>
    unfold strncpyCopy
    rfl
  | succ n ih =>
    cases src with
    | nil =>
      rfl
    | cons c src =>
      rw [strncpyCopy, ih src, length_cons]
      by_cases hlt : src.length < n
      · have hsub : n + 1 - (src.length + 1) - 1 = n - src.length - 1 := by omega
        rw [if_pos hlt, if_pos (Nat.succ_lt_succ hlt), hsub]
        rfl
      · rw [if_neg hlt, if_neg fun h => hlt (Nat.lt_of_succ_lt_succ h), take_succ_cons]

theorem strncpyBytes_iff (src : CString)
    (n : Nat) : strncpyBytes src n = paddedName src n ↔ src.length < n := by
  unfold strncpyBytes
  rw [strncpyCopy_eq]
  constructor
  · intro h
    by_contra hlong
    rw [if_neg hlong] at h
    have hlength := congrArg List.length h
    rw [length_paddedName, length_append, length_take, length_replicate,
      Nat.min_eq_left (Nat.le_of_not_lt hlong)] at hlength
    omega
  · intro hlt
    rw [if_pos hlt]
    unfold paddedName
    obtain ⟨k, hk⟩ : ∃ k, n - src.length = k + 1 := ⟨n - src.length - 1, by omega⟩
    rw [take_of_length_le hlt.le, hk, replicate_succ]
    dsimp only
    rw [append_assoc]
    rfl

section Additions

variable {tab : Symtab} {x : CString} {type : SymType} {offset scope : Int}

/-- The addition comes back, and if it reports success the name is found with its type and offset. -/
def AddFound (tab : Symtab) (x : CString) (type : SymType) (offset scope : Int) : Prop :=
  ∃ r tab', symtabAdd tab x type offset scope = some (r, tab') ∧
    (r = 0 → ∃ sym, symtabLookup tab' x = some sym ∧ sym.type = type ∧ sym.offset = offset)

/-- `symtab_add` reports a failure: no scope, the name is there already, or no slot is free. -/
def Rejects (tab : Symtab) (x : CString) (scope : Int) : Prop :=
  scope < 0 ∨ (∃ sym ∈ tab.entries, sym.scopeLevel = scope ∧ sym.name = x) ∨ findFreeSlot tab = none

/-- In a slot above the free one the name has no symbol, or the highest one has this type and offset. -/
def Unshadowed (tab : Symtab) (x : CString) (type : SymType) (offset : Int) : Prop :=
  ∀ idx, findFreeSlot tab = some idx → ∀ (j : Nat) sym, idx < j → tab.entries[j]? = some sym →
    sym.scopeLevel ≠ -1 ∧ sym.name = x →
    (∀ (k : Nat) sym', j < k → tab.entries[k]? = some sym' →
      ¬ (sym'.scopeLevel ≠ -1 ∧ sym'.name = x)) →
    sym.type = type ∧ sym.offset = offset

theorem symtabAdd_rejects (h : Rejects tab x scope) : symtabAdd tab x type offset scope = some (-1, tab) := by
  unfold symtabAdd
  by_cases hscope : scope < 0
  · rw [if_pos hscope]
  rw [if_neg hscope]
  by_cases hany : (tab.entries.any fun s => s.scopeLevel = scope ∧ s.name = x) = true
  · rw [if_pos hany]
  rw [if_neg hany]
  rcases h.resolve_left hscope with ⟨sym, hmem, hsym⟩ | hfull
  · exact absurd (any_eq_true.mpr ⟨sym, hmem, by simpa using hsym⟩) hany
  · rw [hfull]

theorem symtabAdd_enters (h : ¬ Rejects tab x scope) : ∃ idx, findFreeSlot tab = some idx ∧
    symtabAdd tab x type offset scope = (strncpy x (symNameMax - 1)).map fun stored => (0,
      { entries := tab.entries.set idx (enteredSymbol stored type offset scope)
        nextFree := (idx + 1) % symTableSize }) := by
  obtain ⟨hscope, hrest⟩ := not_or.mp h
  obtain ⟨hany, hfull⟩ := not_or.mp hrest
  obtain ⟨idx, hidx⟩ := ne_none_iff_exists'.mp hfull
  refine ⟨idx, hidx, ?_⟩
  have hnone : ¬ (tab.entries.any fun s => s.scopeLevel = scope ∧ s.name = x) = true := by
    intro h
    obtain ⟨sym, hmem, hsym⟩ := any_eq_true.mp h
    exact hany ⟨sym, hmem, by simpa using hsym⟩
  unfold symtabAdd
  rw [if_neg hscope, if_neg hnone, hidx]
  cases strncpy x (symNameMax - 1) <;> rfl

theorem lookup_entered {idx : Nat} (hidx : findFreeSlot tab = some idx) (hscope : 0 ≤ scope) {next : Nat} :
    (∃ sym, symtabLookup
        { entries := tab.entries.set idx (enteredSymbol x type offset scope)
          nextFree := next } x = some sym ∧ sym.type = type ∧ sym.offset = offset) ↔
      Unshadowed tab x type offset := by
  obtain ⟨old, hold, hempty⟩ := map_eq_some_iff.mp (findFreeSlot_free hidx)
  obtain ⟨hlt, -⟩ := List.getElem?_eq_some_iff.mp hold
  have hlive : (enteredSymbol x type offset scope).scopeLevel ≠ -1 := by
    change scope ≠ -1
    omega
  constructor
  · rintro ⟨sym, hlookup, htype, hoffset⟩ idx' hidx' j sym' hj hentry hboth hhighest
    obtain rfl : idx = idx' := some.inj (hidx.symm.trans hidx')
    obtain ⟨i, hi, hnamed, hlater⟩ := lookup_iff.mp hlookup
    have hset : ∀ k, k ≠ idx → (tab.entries.set idx (enteredSymbol x type offset scope))[k]? =
      tab.entries[k]? :=
      fun k hk => getElem?_set_ne hk.symm
    -- the symbol found is the highest of the old ones
    have hij : i = j := by
      rcases lt_trichotomy i j with hlt | heq | hgt
      · exact absurd hboth (hlater j sym' hlt ((hset j (by omega)).trans hentry))
      · exact heq
      · refine absurd hnamed (hhighest i sym hgt ?_)
        rw [← hset i (by omega)]
        exact hi
    subst hij
    have hsame : sym' = sym := by
      rw [← hset i (by omega)] at hentry
      exact some.inj (hentry.symm.trans hi)
    rw [hsame]
    exact ⟨htype, hoffset⟩
  · intro hfree
    have hset : ∀ k, k ≠ idx → (tab.entries.set idx (enteredSymbol x type offset scope))[k]? =
      tab.entries[k]? :=
      fun k hk => getElem?_set_ne hk.symm
    have hself : (tab.entries.set idx (enteredSymbol x type offset scope))[idx]? =
        some (enteredSymbol x type offset scope) := getElem?_set_self hlt
    have hfound : ∃ sym, symtabLookup
        { entries := tab.entries.set idx (enteredSymbol x type offset scope)
          nextFree := next } x = some sym := by
      refine ne_none_iff_exists'.mp fun hnone => ?_
      have hmiss := find?_eq_none.mp hnone _ (mem_reverse.mpr (mem_of_getElem? hself))
      simp [enteredSymbol] at hmiss
      exact hlive hmiss
    obtain ⟨sym, hlookup⟩ := hfound
    refine ⟨sym, hlookup, ?_⟩
    obtain ⟨i, hi, hnamed, hlater⟩ := lookup_iff.mp hlookup
    rcases lt_trichotomy i idx with hbelow | heq | habove
    · exact absurd ⟨hlive, rfl⟩ (hlater idx _ hbelow hself)
    · subst heq
      rw [← some.inj (hself.symm.trans hi)]
      exact ⟨rfl, rfl⟩
    · refine hfree idx hidx i sym habove ?_ hnamed fun k sym' hk hentry => ?_
      · rw [← hset i (by omega)]
        exact hi
      · exact hlater k sym' hk ((hset k (by omega)).trans hentry)

theorem addFound_iff (tab : Symtab) (x : CString) (type : SymType) (offset scope : Int) :
    AddFound tab x type offset scope ↔
    (Rejects tab x scope ∨ x.length ≤ 30 ∧ Unshadowed tab x type offset) := by
  by_cases hrejects : Rejects tab x scope
  · refine ⟨fun _ => .inl hrejects, fun _ => ⟨-1, tab, symtabAdd_rejects hrejects, fun h => ?_⟩⟩
    exact nomatch h
  · obtain ⟨idx, hidx, hadd⟩ := @symtabAdd_enters tab x type offset scope hrejects
    have hscope : 0 ≤ scope := Int.not_lt.mp fun h => hrejects (.inl h)
    constructor
    · rintro ⟨r, tab', hresult, hfound⟩
      rw [hadd] at hresult
      obtain ⟨stored, hstored, heq⟩ := map_eq_some_iff.mp hresult
      unfold strncpy at hstored
      split at hstored
      · rename_i hlt
        obtain rfl := some.inj hstored
        cases heq
        exact .inr ⟨Nat.le_of_lt_succ hlt, (lookup_entered hidx hscope).mp (hfound rfl)⟩
      · cases hstored
    · intro hcond
      obtain ⟨hshort, hfree⟩ := hcond.resolve_left hrejects
      have hstored : strncpy x (symNameMax - 1) = some x := if_pos (Nat.lt_succ_of_le hshort)
      rw [hstored] at hadd
      exact ⟨0, _, hadd, fun _ => (lookup_entered hidx hscope).mpr hfree⟩

end Additions

/-- `strncpy` writes its field where the string ends before the count, so names of at most 30 characters are found.
-/
theorem names_iff (src : CString) (n : Nat) (tab : Symtab) (x : CString) (type : SymType)
    (offset scope : Int) :
    (strncpyBytes src n = paddedName src n ↔ src.length < n) ∧
      (AddFound tab x type offset scope ↔
      (Rejects tab x scope ∨ x.length ≤ 30 ∧ Unshadowed tab x type offset)) :=
  ⟨strncpyBytes_iff src n, addFound_iff tab x type offset scope⟩

/-- A name of 31 characters: `strncpy` runs on over the memory behind, and the addition does not come
back. -/
theorem not_found_long : strncpyBytes (List.replicate 31 97) 31 ≠ paddedName (List.replicate 31 97) 31 ∧
      (strncpyBytes (List.replicate 31 97) 31).length = 31 + (2 ^ 32 - 1) ∧
      ¬ AddFound symtabInit (List.replicate 31 97) .int (-4) 1 := by
  have hbytes : strncpyBytes (List.replicate 31 97) 31 =
      List.replicate 31 97 ++ List.replicate (2 ^ 32 - 1) 0 := by
    unfold strncpyBytes
    rfl
  refine ⟨fun h => ?_, ?_, ?_⟩
  · exact absurd ((strncpyBytes_iff _ _).mp h) (by decide)
  · rw [hbytes, length_append, length_replicate, length_replicate]
  · rintro ⟨r, tab', hadd, -⟩
    have hnone : symtabAdd symtabInit (List.replicate 31 97) .int (-4) 1 = none := by decide +kernel
    rw [hnone] at hadd
    cases hadd

end JexOs.Tcc
