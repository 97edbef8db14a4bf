import JexOs.Symtab
import Mathlib.Data.List.Sublists

/-!
# Scopes of the symbol table

A lookup finds the symbol in the highest slot, so it finds the newest one exactly where every symbol was entered
above the older ones of its name.
-/

namespace JexOs.Tcc

open List Option

inductive ScopeOp where
  | enter
  | exit
  | add (name : CString) (type : SymType) (offset : Int)
deriving DecidableEq, Repr

/-- The current scope, and the symbols of the scopes that are open, the newest first. -/
structure Scopes where
  current : Int
  live : List Symbol
deriving DecidableEq, Repr

namespace Scopes

def start : Scopes :=
  { current := 0
    live := [] }

def Refuses (a : Scopes) (x : CString) : Prop :=
  (∃ sym ∈ a.live, sym.scopeLevel = a.current ∧ sym.name = x) ∨ symTableSize ≤ a.live.length

instance (a : Scopes) (x : CString) : Decidable (a.Refuses x) := inferInstanceAs (Decidable (_ ∨ _))

def step (a : Scopes) : ScopeOp → Scopes
  | .enter => { a with current := a.current + 1 }
  | .exit =>
    if a.current ≤ 0 then a
    else
      { current := a.current - 1
        live := a.live.filter fun sym => sym.scopeLevel ≠ a.current }
  | .add x type offset =>
    if a.Refuses x then a
    else
      { a with
        live :=
          { name := x
            type := type
            baseType := .int
            offset := offset
            scopeLevel := a.current
            arraySize := 0 } :: a.live }

def run (a : Scopes) (ops : List ScopeOp) : Scopes := ops.foldl step a

theorem run_append (a : Scopes) (ops ops' : List ScopeOp) : a.run (ops ++ ops') = (a.run ops).run ops' :=
  foldl_append

def lookup (a : Scopes) (x : CString) : Option Symbol := a.live.find? fun sym => sym.name = x

end Scopes

namespace ScopedTab

def start : ScopedTab :=
  { tab := symtabInit
    currentScope := 0 }

def step (t : ScopedTab) : ScopeOp → Option ScopedTab
  | .enter => some (symtabEnterScope t)
  | .exit => some (symtabExitScope t)
  | .add x type offset => do
      let (_, tab) ← symtabAdd t.tab x type offset t.currentScope
      some { t with tab := tab }

def run (t : ScopedTab) (ops : List ScopeOp) : Option ScopedTab := ops.foldlM step t

theorem run_cons (t : ScopedTab) (op : ScopeOp) (ops : List ScopeOp) :
    t.run (op :: ops) = (t.step op).bind fun t => t.run ops := foldlM_cons

theorem run_append (t : ScopedTab) (ops ops' : List ScopeOp) :
    t.run (ops ++ ops') = (t.run ops).bind fun t => t.run ops' := foldlM_append

end ScopedTab

/-- The symbols that are live, with their slots. Of two with the same name the newer one has the higher
scope. -/
structure Represents (t : ScopedTab) (ps : List (Nat × Symbol)) : Prop where
  length : t.tab.entries.length = symTableSize
  current : 0 ≤ t.currentScope
  sound : ∀ p ∈ ps, t.tab.entries[p.1]? = some p.2
  scopes : ∀ p ∈ ps, 0 ≤ p.2.scopeLevel ∧ p.2.scopeLevel ≤ t.currentScope
  complete : ∀ i sym, t.tab.entries[i]? = some sym → sym.scopeLevel ≠ -1 → (i, sym) ∈ ps
  slots : (ps.map Prod.fst).Nodup
  nested : ps.Pairwise fun p q => p.2.name = q.2.name → q.2.scopeLevel < p.2.scopeLevel

def Rising (ps : List (Nat × Symbol)) : Prop :=
  ps.Pairwise fun p q => p.2.name = q.2.name → q.1 < p.1

/-- The slot that a name gets, if it is entered, is above every live symbol of the name. -/
def AddsAbove (t : ScopedTab) (x : CString) : Prop :=
  ∀ idx, findFreeSlot t.tab = some idx →
    (∀ sym ∈ t.tab.entries, ¬ (sym.scopeLevel = t.currentScope ∧ sym.name = x)) →
    ∀ j sym, t.tab.entries[j]? = some sym → sym.scopeLevel ≠ -1 → sym.name = x → j < idx

section Lookup

variable {t : ScopedTab} {ps : List (Nat × Symbol)} {tab : Symtab} {x : CString} {sym : Symbol}

theorem find?_reverse_iff {α : Type} {p : α → Bool} {xs : List α} {a : α} : xs.reverse.find? p = some a ↔
      ∃ i, xs[i]? = some a ∧ p a = true ∧ ∀ (j : Nat) b, i < j → xs[j]? = some b → p b = false := by
  rw [find?_eq_some_iff_append]
  constructor
  · rintro ⟨ha, after, before, hsplit, hafter⟩
    have hxs : xs = before.reverse ++ a :: after.reverse := by
      rw [← reverse_reverse xs, hsplit]
      simp
    refine ⟨before.length, ?_, ha, fun j b hj hb => ?_⟩
    · rw [hxs, getElem?_append_right (by simp)]
      simp
    · rw [hxs, getElem?_append_right (by simp; omega)] at hb
      obtain ⟨k, hk⟩ : ∃ k, j - before.reverse.length = k + 1 :=
        ⟨j - before.reverse.length - 1, by simp; omega⟩
      rw [hk, getElem?_cons_succ] at hb
      simpa using hafter b (mem_reverse.mp (mem_of_getElem? hb))
  · rintro ⟨i, hi, ha, hlater⟩
    obtain ⟨hlt, rfl⟩ := List.getElem?_eq_some_iff.mp hi
    refine ⟨ha, (xs.drop (i + 1)).reverse, (xs.take i).reverse, ?_, fun b hb => ?_⟩
    · have hsplit : xs = xs.take i ++ xs[i] :: xs.drop (i + 1) := by
        rw [← drop_eq_getElem_cons hlt, take_append_drop]
      conv_lhs => rw [hsplit]
      simp
    · obtain ⟨k, hk⟩ := mem_iff_getElem?.mp (mem_reverse.mp hb)
      rw [getElem?_drop] at hk
      simpa using hlater _ b (by omega) hk

theorem lookup_iff : symtabLookup tab x = some sym ↔
    ∃ i, tab.entries[i]? = some sym ∧ (sym.scopeLevel ≠ -1 ∧ sym.name = x) ∧
      ∀ (j : Nat) sym', i < j → tab.entries[j]? = some sym' → ¬ (sym'.scopeLevel ≠ -1 ∧ sym'.name = x) := by
  unfold symtabLookup
  rw [find?_reverse_iff]
  simp only [decide_eq_true_eq, decide_eq_false_iff_not]

theorem Represents.live (h : Represents t ps) {p : Nat × Symbol} (hp : p ∈ ps) : p.2.scopeLevel ≠ -1 := by
  have hscope := (h.scopes p hp).1
  omega

theorem Represents.lookup (h : Represents t ps) (hrising : Rising ps) (x : CString) :
    symtabLookup t.tab x = (ps.map Prod.snd).find? fun sym => sym.name = x := by
  cases hfind : ps.find? fun p => p.2.name = x with
  | none =>
    have hmissing : (ps.map Prod.snd).find? (fun sym => sym.name = x) = none := by
      rw [find?_map]
      exact congrArg (Option.map Prod.snd) hfind
    rw [hmissing]
    cases hlookup : symtabLookup t.tab x with
    | none => rfl
    | some sym =>
      obtain ⟨i, hi, ⟨hlive, hname⟩, -⟩ := lookup_iff.mp hlookup
      have hnone := find?_eq_none.mp hfind _ (h.complete i sym hi hlive)
      exact absurd hname (by simpa using hnone)
  | some p =>
    have hfound : (ps.map Prod.snd).find? (fun sym => sym.name = x) = some p.2 := by
      rw [find?_map]
      exact congrArg (Option.map Prod.snd) hfind
    rw [hfound, lookup_iff]
    obtain ⟨hname, newer, older, rfl, hnewer⟩ := find?_eq_some_iff_append.mp hfind
    have hp : p ∈ newer ++ p :: older := mem_append_right _ mem_cons_self
    have hname : p.2.name = x := by simpa using hname
    refine ⟨p.1, h.sound p hp, ⟨h.live hp, hname⟩, ?_⟩
    rintro j sym' hj hentry ⟨hlive, hsame⟩
    rcases mem_append.mp (h.complete j sym' hentry hlive) with hmem | hmem
    · have hmiss := hnewer _ hmem
      simp [hsame] at hmiss
    · rcases mem_cons.mp hmem with rfl | hmem
      · exact absurd hj (lt_irrefl _)
      · have hbelow := (pairwise_cons.mp (pairwise_append.mp hrising).2.1).1 _ hmem (hname.trans hsame.symm)
        exact absurd hj (not_lt.mpr hbelow.le)

theorem Represents.highest (h : Represents t ps) (hlookup : symtabLookup t.tab x = some sym) :
    ∃ i, (i, sym) ∈ ps ∧ sym.name = x ∧ ∀ p ∈ ps, p.2.name = x → p.1 ≤ i := by
  obtain ⟨i, hi, ⟨hlive, hname⟩, hlater⟩ := lookup_iff.mp hlookup
  refine ⟨i, h.complete i sym hi hlive, hname, fun p hp hpname => ?_⟩
  by_contra hbelow
  exact hlater p.1 p.2 (not_le.mp hbelow) (h.sound p hp) ⟨h.live hp, hpname⟩

end Lookup

section Slots

variable {t : ScopedTab} {ps : List (Nat × Symbol)} {tab : Symtab} {idx : Nat}

theorem findFreeSlot_none_iff : findFreeSlot tab = none ↔
    ∀ i, i < symTableSize → (tab.entries[i]?.map Symbol.scopeLevel) ≠ some (-1) := by
  unfold findFreeSlot
  rw [find?_eq_none]
  constructor
  · intro hnone i hi
    have hvisited : i ∈ (List.range symTableSize).map fun k => (tab.nextFree + k) % symTableSize := by
      refine mem_map.mpr ⟨(i + symTableSize - tab.nextFree % symTableSize) % symTableSize, ?_, ?_⟩
      · exact mem_range.mpr (Nat.mod_lt _ (by decide))
      · unfold symTableSize at hi ⊢
        omega
    simpa using hnone i hvisited
  · intro hfull idx hvisited
    obtain ⟨k, -, rfl⟩ := mem_map.mp hvisited
    simpa using hfull _ (Nat.mod_lt _ (by decide))

theorem findFreeSlot_free (h : findFreeSlot tab = some idx) :
    (tab.entries[idx]?.map Symbol.scopeLevel) = some (-1) := by
  simpa using find?_some h

theorem Represents.slots_subset (h : Represents t ps) : ps.map Prod.fst ⊆ List.range symTableSize := by
  intro i hi
  obtain ⟨p, hp, rfl⟩ := mem_map.mp hi
  obtain ⟨hlt, -⟩ := List.getElem?_eq_some_iff.mp (h.sound p hp)
  exact mem_range.mpr (h.length ▸ hlt)

theorem Represents.full_iff (h : Represents t ps) : findFreeSlot t.tab = none ↔ symTableSize ≤ ps.length := by
  rw [findFreeSlot_none_iff]
  constructor
  · intro hfull
    have hsubset : List.range symTableSize ⊆ ps.map Prod.fst := by
      intro i hi
      have hlt : i < t.tab.entries.length := by
        rw [h.length]
        exact mem_range.mp hi
      have hentry := getElem?_eq_getElem hlt
      have hlive := hfull i (mem_range.mp hi)
      rw [hentry] at hlive
      exact mem_map.mpr ⟨_, h.complete i _ hentry (by simpa using hlive), rfl⟩
    have hle := (subperm_of_subset (nodup_range (n := symTableSize)) hsubset).length_le
    rwa [length_range, length_map] at hle
  · intro hle i hi hfree
    have hsubperm := subperm_of_subset h.slots h.slots_subset
    have hperm := hsubperm.perm_of_length_le (by rwa [length_range, length_map])
    obtain ⟨p, hp, rfl⟩ := mem_map.mp (hperm.mem_iff.mpr (mem_range.mpr hi))
    rw [h.sound p hp] at hfree
    exact h.live hp (some.inj hfree)

end Slots

section Steps

variable {t : ScopedTab} {ps : List (Nat × Symbol)} {a : Scopes} {x : CString} {type : SymType}
  {offset : Int}

def enteredSymbol (x : CString) (type : SymType) (offset current : Int) : Symbol :=
  { name := x
    type := type
    baseType := .int
    offset := offset
    scopeLevel := current
    arraySize := 0 }

theorem Represents.start : Represents .start [] :=
  { length := length_replicate
    current := Int.le_refl 0
    sound := fun p hp => absurd hp not_mem_nil
    scopes := fun p hp => absurd hp not_mem_nil
    complete := fun i sym hentry hlive => by
      have hmem : sym ∈ List.replicate symTableSize emptySymbol := mem_of_getElem? hentry
      rw [eq_of_mem_replicate hmem] at hlive
      exact absurd rfl hlive
    slots := nodup_nil
    nested := List.Pairwise.nil }

theorem Represents.enter (h : Represents t ps) : Represents (symtabEnterScope t) ps :=
  { length := h.length
    current := Int.le_trans h.current (Int.le_add_of_nonneg_right (by decide))
    sound := h.sound
    scopes := fun p hp => ⟨(h.scopes p hp).1, Int.le_trans (h.scopes p hp).2
      (Int.le_add_of_nonneg_right (by decide))⟩
    complete := h.complete
    slots := h.slots
    nested := h.nested }

theorem Represents.exit (h : Represents t ps) (hopen : ¬ t.currentScope ≤ 0) :
    Represents (symtabExitScope t) (ps.filter fun p => p.2.scopeLevel ≠ t.currentScope) := by
  unfold symtabExitScope
  rw [if_neg hopen]
  have hkept : ∀ {p : Nat × Symbol}, p ∈ ps.filter (fun p => p.2.scopeLevel ≠ t.currentScope) →
      p ∈ ps ∧ p.2.scopeLevel ≠ t.currentScope := by
    intro p hp
    simpa using hp
  exact
    { length := by
        rw [length_map]
        exact h.length
      current := by
        change 0 ≤ t.currentScope - 1
        omega
      sound := fun p hp => by
        obtain ⟨hmem, hother⟩ := hkept hp
        rw [getElem?_map, h.sound p hmem, map_some, if_neg hother]
      scopes := fun p hp => by
        obtain ⟨hmem, hother⟩ := hkept hp
        have hbounds := h.scopes p hmem
        change 0 ≤ p.2.scopeLevel ∧ p.2.scopeLevel ≤ t.currentScope - 1
        omega
      complete := fun i sym hentry hlive => by
        rw [getElem?_map] at hentry
        obtain ⟨old, hold, hsym⟩ := map_eq_some_iff.mp hentry
        split at hsym
        · rw [← hsym] at hlive
          exact absurd rfl hlive
        · rename_i hother
          subst hsym
          refine mem_filter.mpr ⟨h.complete i old hold hlive, ?_⟩
          simpa using hother
      slots := h.slots.sublist (filter_sublist.map _)
      nested := h.nested.sublist filter_sublist }

theorem Represents.add (h : Represents t ps) {idx : Nat} (hslot : findFreeSlot t.tab = some idx)
    (hnew : ∀ p ∈ ps, ¬ (p.2.scopeLevel = t.currentScope ∧ p.2.name = x)) {next : Nat} : Represents
      { t with
        tab :=
          { entries := t.tab.entries.set idx (enteredSymbol x type offset t.currentScope)
            nextFree := next } }
      ((idx, enteredSymbol x type offset t.currentScope) :: ps) := by
  have hfree := findFreeSlot_free hslot
  obtain ⟨old, hold, hempty⟩ := map_eq_some_iff.mp hfree
  obtain ⟨hlt, -⟩ := List.getElem?_eq_some_iff.mp hold
  have hunused : ∀ p ∈ ps, p.1 ≠ idx := by
    rintro p hp rfl
    rw [h.sound p hp] at hold
    exact h.live hp (some.inj hold ▸ hempty)
  exact
    { length := by
        rw [length_set]
        exact h.length
      current := h.current
      sound := fun p hp => by
        rcases mem_cons.mp hp with rfl | hp
        · exact getElem?_set_self hlt
        · rw [getElem?_set_ne (hunused p hp).symm]
          exact h.sound p hp
      scopes := fun p hp => by
        rcases mem_cons.mp hp with rfl | hp
        · exact ⟨h.current, Int.le_refl _⟩
        · exact h.scopes p hp
      complete := fun i sym hentry hlive => by
        by_cases hi : i = idx
        · subst hi
          rw [getElem?_set_self hlt] at hentry
          rw [← some.inj hentry]
          exact mem_cons_self
        · rw [getElem?_set_ne (Ne.symm hi)] at hentry
          exact mem_cons_of_mem _ (h.complete i sym hentry hlive)
      slots := by
        rw [map_cons, nodup_cons]
        refine ⟨fun hmem => ?_, h.slots⟩
        obtain ⟨p, hp, hpidx⟩ := mem_map.mp hmem
        exact hunused p hp hpidx
      nested := by
        refine pairwise_cons.mpr ⟨fun p hp hname => ?_, h.nested⟩
        have hne : p.2.scopeLevel ≠ t.currentScope := fun hscope => hnew p hp ⟨hscope, hname.symm⟩
        exact Int.lt_iff_le_and_ne.mpr ⟨(h.scopes p hp).2, hne⟩ }

theorem Represents.any_iff (h : Represents t ps) :
    (t.tab.entries.any fun sym => sym.scopeLevel = t.currentScope ∧ sym.name = x) = true ↔
      ∃ p ∈ ps, p.2.scopeLevel = t.currentScope ∧ p.2.name = x := by
  rw [List.any_eq_true]
  constructor
  · rintro ⟨sym, hmem, hsym⟩
    have hboth : sym.scopeLevel = t.currentScope ∧ sym.name = x := by simpa using hsym
    obtain ⟨i, hi⟩ := mem_iff_getElem?.mp hmem
    have hlive : sym.scopeLevel ≠ -1 := by
      have hcurrent := h.current
      omega
    exact ⟨(i, sym), h.complete i sym hi hlive, hboth⟩
  · rintro ⟨p, hp, hboth⟩
    exact ⟨p.2, mem_of_getElem? (h.sound p hp), by simpa using hboth⟩

structure Refines (t : ScopedTab) (a : Scopes) (ps : List (Nat × Symbol)) : Prop where
  represents : Represents t ps
  current : a.current = t.currentScope
  live : a.live = ps.map Prod.snd

theorem Refines.refuses_iff (h : Refines t a ps) : a.Refuses x ↔
    (t.tab.entries.any fun sym => sym.scopeLevel = t.currentScope ∧ sym.name = x) = true ∨
      findFreeSlot t.tab = none := by
  unfold Scopes.Refuses
  rw [h.represents.any_iff, h.represents.full_iff, h.current, h.live, length_map]
  simp only [List.mem_map, exists_exists_and_eq_and]

theorem Refines.step (h : Refines t a ps) (op : ScopeOp)
    (hshort : ∀ x type offset, op = .add x type offset → x.length ≤ 30) :
    ∃ t' ps', t.step op = some t' ∧ Refines t' (a.step op) ps' ∧
      (Rising ps → (∀ x type offset, op = .add x type offset → AddsAbove t x) → Rising ps') ∧
      ∀ x type offset, op = .add x type offset →
        (∀ y, symtabLookup t'.tab y = (a.step op).lookup y) → AddsAbove t x := by
  cases op with
  | enter =>
    refine ⟨_, ps, rfl, ⟨h.represents.enter, ?_, h.live⟩, fun hrising _ => hrising, ?_⟩
    · change a.current + 1 = t.currentScope + 1
      rw [h.current]
    · exact fun _ _ _ hop => nomatch hop
  | exit =>
    by_cases hopen : t.currentScope ≤ 0
    · refine ⟨t, ps, ?_, ?_, fun hrising _ => hrising, fun _ _ _ hop => nomatch hop⟩
      · change some (symtabExitScope t) = some t
        unfold symtabExitScope
        rw [if_pos hopen]
      · unfold Scopes.step
        rw [if_pos (h.current.symm ▸ hopen)]
        exact h
    · refine ⟨_, _, rfl, ⟨h.represents.exit hopen, ?_, ?_⟩, fun hrising _ => ?_, fun _ _ _ hop => nomatch hop⟩
      · unfold Scopes.step symtabExitScope
        rw [if_neg (h.current.symm ▸ hopen), if_neg hopen, h.current]
      · unfold Scopes.step
        rw [if_neg (h.current.symm ▸ hopen), h.live, h.current, List.filter_map]
        rfl
      · exact Pairwise.sublist filter_sublist hrising
  | add x type offset =>
    by_cases hrefused : a.Refuses x
    · have hkept : symtabAdd t.tab x type offset t.currentScope = some (-1, t.tab) := by
        have hcurrent := h.represents.current
        unfold symtabAdd
        rw [if_neg (Int.not_lt.mpr hcurrent)]
        by_cases hany : (t.tab.entries.any fun sym => sym.scopeLevel = t.currentScope ∧ sym.name = x) = true
        · rw [if_pos hany]
        · rw [if_neg hany, (h.refuses_iff.mp hrefused).resolve_left hany]
      have hsame : a.step (.add x type offset) = a := if_pos hrefused
      have habove : AddsAbove t x := by
        intro idx hidx hnone
        rcases h.refuses_iff.mp hrefused with hany | hfull
        · obtain ⟨sym, hmem, hsym⟩ := any_eq_true.mp hany
          exact absurd (by simpa using hsym) (hnone sym hmem)
        · rw [hfull] at hidx
          exact nomatch hidx
      refine ⟨t, ps, ?_, hsame.symm ▸ h, fun hrising _ => hrising, ?_⟩
      · change (symtabAdd t.tab x type offset t.currentScope).bind _ = _
        rw [hkept]
        rfl
      · rintro _ _ _ ⟨⟩ _
        exact habove
    · obtain ⟨hany, hroom⟩ := not_or.mp fun hor => hrefused (h.refuses_iff.mpr hor)
      obtain ⟨idx, hidx⟩ := ne_none_iff_exists'.mp hroom
      have hnew : ∀ p ∈ ps, ¬ (p.2.scopeLevel = t.currentScope ∧ p.2.name = x) :=
        fun p hp hboth => hany (h.represents.any_iff.mpr ⟨p, hp, hboth⟩)
      have hadd : symtabAdd t.tab x type offset t.currentScope = some (0,
          { entries := t.tab.entries.set idx (enteredSymbol x type offset t.currentScope)
            nextFree := (idx + 1) % symTableSize }) := by
        have hcurrent := h.represents.current
        have hstored : strncpy x (symNameMax - 1) = some x :=
          if_pos (Nat.lt_succ_of_le (hshort x type offset rfl))
        unfold symtabAdd
        rw [if_neg (Int.not_lt.mpr hcurrent), if_neg hany, hidx]
        rw [hstored]
        rfl
      have hstep : a.step (.add x type offset) =
          { a with live := enteredSymbol x type offset t.currentScope :: a.live } := by
        unfold Scopes.step
        dsimp only
        rw [if_neg hrefused, h.current]
        rfl
      have hafter := @Represents.add t ps x type offset h.represents idx hidx hnew ((idx + 1) % symTableSize)
      refine ⟨_, _, ?_, ⟨hafter, ?_, ?_⟩, fun hrising habove => ?_, ?_⟩
      · change (symtabAdd t.tab x type offset t.currentScope).bind _ = _
        rw [hadd]
        rfl
      · rw [hstep]
        exact h.current
      · rw [hstep, h.live]
        rfl
      · refine pairwise_cons.mpr ⟨fun p hp hname => ?_, hrising⟩
        have hentries : ∀ sym ∈ t.tab.entries, ¬ (sym.scopeLevel = t.currentScope ∧ sym.name = x) :=
          fun sym hmem hboth => hany (any_eq_true.mpr ⟨sym, hmem, by simpa using hboth⟩)
        exact habove x type offset rfl idx hidx hentries p.1 p.2 (h.represents.sound p hp)
          (h.represents.live hp) hname.symm
      · rintro _ _ _ ⟨⟩ hrecent idx' hidx' _ j sym hentry hlive hname
        obtain rfl : idx = idx' := some.inj (hidx.symm.trans hidx')
        have hlookup := hrecent x
        rw [hstep] at hlookup
        have hfirst : ({ a with live := enteredSymbol x type offset t.currentScope :: a.live } : Scopes).lookup x =
            some (enteredSymbol x type offset t.currentScope) := by
          unfold Scopes.lookup
          rw [find?_cons_of_pos (by simp [enteredSymbol])]
        rw [hfirst] at hlookup
        obtain ⟨i, hi, -, hhighest⟩ := hafter.highest hlookup
        have hi : i = idx := by
          rcases mem_cons.mp hi with heq | hmem
          · exact congrArg Prod.fst heq
          · exact absurd ⟨rfl, rfl⟩ (hnew _ hmem)
        have hmem := h.represents.complete j sym hentry hlive
        have hle := hhighest (j, sym) (mem_cons_of_mem _ hmem) hname
        have hne : j ≠ idx := by
          rintro rfl
          have hfree := findFreeSlot_free hidx
          rw [hentry] at hfree
          exact hlive (some.inj hfree)
        exact Nat.lt_of_le_of_ne (hi ▸ hle) hne

end Steps

section Runs

variable {t : ScopedTab} {ps : List (Nat × Symbol)} {a : Scopes} {ops : List ScopeOp}

def ShortNames (ops : List ScopeOp) : Prop := ∀ x type offset, .add x type offset ∈ ops → x.length ≤ 30

theorem Refines.run (h : Refines t a ps) (hshort : ShortNames ops) :
    ∃ t' ps', t.run ops = some t' ∧ Refines t' (a.run ops) ps' ∧
      (Rising ps → (∀ before x type offset after, ops = before ++ .add x type offset :: after →
        ∀ t₁, t.run before = some t₁ → AddsAbove t₁ x) → Rising ps') := by
  induction ops generalizing t a ps with
  | nil => exact ⟨t, ps, rfl, h, fun hrising _ => hrising⟩
  | cons op ops ih =>
    obtain ⟨t₁, ps₁, hstep, hrefines, hrising₁, -⟩ := h.step op
      fun x type offset hop => hshort x type offset (hop ▸ mem_cons_self)
    obtain ⟨t', ps', hrun, hrefines', hrising'⟩ := ih hrefines
      fun x type offset hmem => hshort x type offset (mem_cons_of_mem _ hmem)
    have hcons : ∀ rest, t.run (op :: rest) = t₁.run rest := by
      intro rest
      rw [ScopedTab.run_cons, hstep, bind_some]
    refine ⟨t', ps', (hcons ops).trans hrun, hrefines', fun hrising habove => hrising' ?_ ?_⟩
    · refine hrising₁ hrising fun x type offset hop => ?_
      exact habove [] x type offset ops (by rw [hop]; rfl) t rfl
    · intro before x type offset after hops t₂ ht₂
      refine habove (op :: before) x type offset after ?_ t₂ ((hcons before).trans ht₂)
      rw [hops]
      rfl

theorem Refines.start : Refines .start .start [] :=
  { represents := Represents.start
    current := rfl
    live := rfl }

/-- In every state of a run, a lookup of any name finds what is newest. -/
def FindsNewest (ops : List ScopeOp) : Prop :=
  ∀ before after, ops = before ++ after → ∃ t, ScopedTab.start.run before = some t ∧
    ∀ x, symtabLookup t.tab x = (Scopes.start.run before).lookup x

/-- Lookups find the newest symbol in every state of a run exactly where every symbol is entered above the
live symbols of its name. -/
theorem findsNewest_iff (hshort : ShortNames ops) :
    FindsNewest ops ↔ ∀ before x type offset after, ops = before ++ .add x type offset :: after →
      ∀ t, ScopedTab.start.run before = some t → AddsAbove t x := by
  constructor
  · intro hfinds before x type offset after hops t ht
    have hshort' : ∀ {part}, part ⊆ ops → ShortNames part :=
      fun hsub y type' offset' hmem => hshort y type' offset' (hsub hmem)
    obtain ⟨t₁, ps, hrun, hrefines, -⟩ := Refines.start.run
      (hshort' (by rw [hops]; exact subset_append_left _ _) : ShortNames before)
    obtain rfl : t = t₁ := some.inj (ht.symm.trans hrun)
    obtain ⟨t', ps', hstep, -, -, habove⟩ := hrefines.step (.add x type offset)
      fun y type' offset' hop => hshort y type' offset' (by
        rw [hops, ← hop]
        exact mem_append_right _ mem_cons_self)
    obtain ⟨t₂, hrun₂, hnewest⟩ := hfinds (before ++ [.add x type offset]) after (by
      rw [hops, append_assoc]
      rfl)
    have hboth : ScopedTab.start.run (before ++ [.add x type offset]) = some t' := by
      rw [ScopedTab.run_append, hrun, bind_some, ScopedTab.run_cons, hstep]
      rfl
    obtain rfl : t' = t₂ := some.inj (hboth.symm.trans hrun₂)
    refine habove x type offset rfl fun y => ?_
    rw [hnewest y, Scopes.run_append]
    rfl
  · intro habove before after hops
    obtain ⟨t, ps, hrun, hrefines, hrising⟩ := @Refines.run _ _ _ before Refines.start
      fun x type offset hmem => hshort x type offset (by
        rw [hops]
        exact mem_append_left _ hmem)
    refine ⟨t, hrun, fun x => ?_⟩
    have hup := hrising List.Pairwise.nil fun part x type offset rest hpart t₁ ht₁ =>
      habove part x type offset (rest ++ after) (by rw [hops, hpart, append_assoc]; rfl) t₁ ht₁
    rw [hrefines.represents.lookup hup x]
    unfold Scopes.lookup
    rw [hrefines.live]

def nestedOps : List ScopeOp :=
  [.add (cstring "x") .int (-4), .enter, .add (cstring "x") .char (-5), .exit]

theorem findsNewest_iff_nested : FindsNewest nestedOps := by
  have hshort : ShortNames nestedOps := by
    intro x type offset hmem
    have hx : x = cstring "x" := by
      simp [nestedOps] at hmem
      exact hmem.elim And.left And.left
    rw [hx]
    decide
  refine (findsNewest_iff hshort).mpr ?_
  intro before x type offset after hops t ht idx hidx _ j sym hentry hlive _
  match before, hops, ht with
  | [], _, ht =>
    obtain rfl := some.inj ht
    have hmem : sym ∈ List.replicate symTableSize emptySymbol := mem_of_getElem? hentry
    rw [eq_of_mem_replicate hmem] at hlive
    exact absurd rfl hlive
  | [_], hops, _ =>
    injection hops with _ hops
    injection hops with hop _
    cases hop
  | [_, _], hops, ht =>
    injection hops with hfirst hops
    injection hops with hsecond _
    subst hfirst hsecond
    have hstate : (ScopedTab.start.run [.add (cstring "x") .int (-4), .enter]).map
        (fun t => (t.tab.entries, findFreeSlot t.tab)) =
        some (enteredSymbol (cstring "x") .int (-4) 0 :: List.replicate 255 emptySymbol, some 1) := by
      decide +kernel
    rw [ht] at hstate
    obtain ⟨hentries, hslot⟩ := Prod.ext_iff.mp (some.inj hstate)
    dsimp only at hentries hslot
    rw [hslot] at hidx
    obtain rfl := some.inj hidx
    rw [hentries] at hentry
    cases j with
    | zero => exact Nat.one_pos
    | succ j =>
      rw [eq_of_mem_replicate (mem_of_getElem? hentry)] at hlive
      exact absurd rfl hlive
  | [_, _, _], hops, _ =>
    injection hops with _ hops
    injection hops with _ hops
    injection hops with _ hops
    injection hops with hop _
    cases hop
  | _ :: _ :: _ :: _ :: _, hops, _ =>
    have hlength := congrArg List.length hops
    simp [nestedOps] at hlength

def cycle : List ScopeOp := [.enter, .add (cstring "x") .int 0, .exit]

def moved (k : Nat) : ScopedTab :=
  { tab :=
      { entries := List.replicate symTableSize emptySymbol
        nextFree := k }
    currentScope := 0 }

theorem run_cycle {k : Nat} (hk : k < symTableSize) :
    (moved k).run cycle = some (moved ((k + 1) % symTableSize)) := by
  have hslot : findFreeSlot (moved k).tab = some k := by
    unfold findFreeSlot moved
    have hrange : List.range symTableSize = 0 :: (List.range (symTableSize - 1)).map Nat.succ :=
      range_succ_eq_map
    rw [hrange, map_cons, Nat.add_zero, Nat.mod_eq_of_lt hk, find?_cons_of_pos]
    rw [getElem?_replicate_of_lt hk]
    rfl
  have hnone : ¬ ((moved k).tab.entries.any fun sym => sym.scopeLevel = 1 ∧
    sym.name = cstring "x") = true := by
    intro hany
    obtain ⟨sym, hmem, hsym⟩ := any_eq_true.mp hany
    rw [eq_of_mem_replicate hmem] at hsym
    exact absurd hsym (by decide)
  have hstored : strncpy (cstring "x") (symNameMax - 1) = some (cstring "x") := rfl
  have hadd : symtabAdd (moved k).tab (cstring "x") .int 0 1 = some (0,
      { entries := (moved k).tab.entries.set k (enteredSymbol (cstring "x") .int 0 1)
        nextFree := (k + 1) % symTableSize }) := by
    unfold symtabAdd
    rw [if_neg (by decide), if_neg hnone, hslot]
    rfl
  have hcleared : ((moved k).tab.entries.set k (enteredSymbol (cstring "x") .int 0 1)).map
      (fun sym => if sym.scopeLevel = 1 then clearSymbol sym else sym) = (moved k).tab.entries := by
    rw [map_set]
    unfold moved
    rw [map_replicate]
    exact set_replicate_self
  have henter : (moved k).step .enter =
      some
        { tab := (moved k).tab
          currentScope := 1 } := rfl
  unfold cycle
  rw [ScopedTab.run_cons, henter, bind_some, ScopedTab.run_cons]
  unfold ScopedTab.step
  dsimp only
  rw [hadd, bind_eq_bind, bind_some]
  rw [bind_some, ScopedTab.run_cons]
  unfold ScopedTab.step symtabExitScope
  dsimp only
  rw [if_neg (by decide), hcleared]
  rfl

def wrapped : List ScopeOp :=
  (List.replicate 255 cycle).flatten ++
    [.add (cstring "x") .int (-4), .enter, .add (cstring "x") .char (-5)]

theorem run_cycles {n : Nat} (hn : n < symTableSize) :
    ScopedTab.start.run (List.replicate n cycle).flatten = some (moved n) ∧
      Scopes.start.run (List.replicate n cycle).flatten = .start := by
  induction n with
  | zero => exact ⟨rfl, rfl⟩
  | succ n ih =>
    obtain ⟨hrun, hscopes⟩ := ih (Nat.lt_of_succ_lt hn)
    rw [replicate_succ', flatten_append, flatten_singleton]
    constructor
    · have hcycle := run_cycle (Nat.lt_of_succ_lt hn)
      rw [Nat.mod_eq_of_lt hn] at hcycle
      rw [ScopedTab.run_append, hrun, bind_some, hcycle]
    · rw [Scopes.run_append, hscopes]
      decide

/-- The lookup finds the outer `x`. -/
theorem not_findsNewest_wrapped : ¬ FindsNewest wrapped := by
  intro hfinds
  obtain ⟨t, hrun, hnewest⟩ := hfinds wrapped [] (append_nil _).symm
  obtain ⟨hcycles, hscopes⟩ := @run_cycles 255 (by decide)
  have hrest : ((moved 255).run [.add (cstring "x") .int (-4), .enter,
      .add (cstring "x") .char (-5)]).map (fun t => symtabLookup t.tab (cstring "x")) =
      some (some (enteredSymbol (cstring "x") .int (-4) 0)) := by decide +kernel
  have hwhole : ScopedTab.start.run wrapped = (moved 255).run [.add (cstring "x") .int (-4), .enter,
      .add (cstring "x") .char (-5)] := by
    unfold wrapped
    rw [ScopedTab.run_append, hcycles, bind_some]
  rw [← hwhole, hrun, map_some, hnewest] at hrest
  have hlive : (Scopes.start.run wrapped).lookup (cstring "x") =
      some (enteredSymbol (cstring "x") .char (-5) 1) := by
    unfold wrapped
    rw [Scopes.run_append, hscopes]
    decide
  rw [hlive] at hrest
  exact absurd (some.inj hrest) (by decide)

end Runs

end JexOs.Tcc
