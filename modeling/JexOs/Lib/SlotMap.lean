import Mathlib.Data.Finmap

/-!
# Tables of slots

Each slot is free or holds a value under a key, and no two slots hold the same key. What a slot consists of is left
open: `view` tells the key and the value.
-/

namespace SlotMap

open List Option

variable {σ κ α : Type} [DecidableEq κ] {view : σ → Option (κ × α)} {slots : List σ}
  {m : Finmap fun _ : κ => α} {i : Nat} {old new : σ} {key : κ} {v v' : α}

structure Represents (view : σ → Option (κ × α)) (slots : List σ) (m : Finmap fun _ : κ => α) : Prop where
  unique : ∀ (i j : Nat) (a b : σ) (key : κ) (v v' : α), slots[i]? = some a → slots[j]? = some b →
    view a = some (key, v) → view b = some (key, v') → i = j
  lookup_iff : ∀ key v, m.lookup key = some v ↔
    ∃ (i : Nat) (slot : σ), slots[i]? = some slot ∧ view slot = some (key, v)
  card : m.keys.card = slots.countP fun slot => (view slot).isSome

theorem represents_empty (h : ∀ slot ∈ slots, view slot = none) : Represents view slots ∅ where
  unique i j a b key v v' ha hb hview _ := by
    rw [h a (mem_of_getElem? ha)] at hview
    cases hview
  lookup_iff key v := by
    constructor
    · intro hlookup
      rw [Finmap.lookup_empty] at hlookup
      cases hlookup
    · rintro ⟨i, slot, hslot, hview⟩
      rw [h slot (mem_of_getElem? hslot)] at hview
      cases hview
  card := by
    rw [Finmap.keys_empty, Finset.card_empty]
    refine (countP_eq_zero.mpr fun slot hslot => ?_).symm
    rw [h slot hslot]
    exact Bool.false_ne_true

theorem getElem?_set_iff {j : Nat} {slot : σ} (hold : slots[i]? = some old) :
    (slots.set i new)[j]? = some slot ↔ (j = i ∧ slot = new) ∨ (j ≠ i ∧ slots[j]? = some slot) := by
  have hi : i < slots.length := (List.getElem?_eq_some_iff.mp hold).1
  rw [getElem?_set]
  by_cases hij : i = j
  · subst hij
    rw [if_pos rfl, if_pos hi]
    exact ⟨fun h => .inl ⟨rfl, (some.inj h).symm⟩,
      fun h => h.elim (fun h => congrArg some h.2.symm) fun h => absurd rfl h.1⟩
  · rw [if_neg hij]
    exact ⟨fun h => .inr ⟨fun he => hij he.symm, h⟩, fun h => h.elim (fun h => absurd h.1.symm hij) And.right⟩

theorem countP_set' {p : σ → Bool} (hold : slots[i]? = some old) :
    (slots.set i new).countP p + (if p old then 1 else 0) = slots.countP p + if p new then 1 else 0 := by
  obtain ⟨hi, hget⟩ := List.getElem?_eq_some_iff.mp hold
  have hpos : p old = true → 0 < slots.countP p := fun hp =>
    countP_pos_iff.mpr ⟨old, mem_of_getElem? hold, hp⟩
  rw [countP_set hi, hget]
  cases hp : p old with
  | false => rfl
  | true =>
    have hused := hpos hp
    simp only [if_true]
    omega

namespace Represents

variable (h : Represents view slots m)

include h

theorem mem_iff : key ∈ m ↔ ∃ (i : Nat) (slot : σ) (v : α), slots[i]? = some slot ∧
    view slot = some (key, v) := by
  rw [Finmap.mem_iff]
  constructor
  · rintro ⟨v, hv⟩
    obtain ⟨i, slot, hslot, hview⟩ := (h.lookup_iff key v).mp hv
    exact ⟨i, slot, v, hslot, hview⟩
  · rintro ⟨i, slot, v, hslot, hview⟩
    exact ⟨v, (h.lookup_iff key v).mpr ⟨i, slot, hslot, hview⟩⟩

theorem insert (hold : slots[i]? = some old) (hnew : view new = some (key, v))
    (hslot : (∃ v', view old = some (key, v')) ∨ (view old = none ∧ key ∉ m)) :
    Represents view (slots.set i new) (m.insert key v) where
  unique j k a b key' w w' ha hb hwa hwb := by
    have hother : ∀ (j : Nat) a w, slots[j]? = some a → view a = some (key, w) → j = i := by
      intro j a w ha hw
      rcases hslot with ⟨v', hv'⟩ | ⟨-, habsent⟩
      · exact h.unique j i a old key w v' ha hold hw hv'
      · exact absurd (h.mem_iff.mpr ⟨j, a, w, ha, hw⟩) habsent
    rcases (getElem?_set_iff hold).mp ha with ⟨rfl, rfl⟩ | ⟨-, ha'⟩ <;>
      rcases (getElem?_set_iff hold).mp hb with ⟨rfl, rfl⟩ | ⟨-, hb'⟩
    · rfl
    · obtain ⟨rfl, -⟩ := Prod.mk.inj (some.inj (hnew.symm.trans hwa))
      exact (hother k b w' hb' hwb).symm
    · obtain ⟨rfl, -⟩ := Prod.mk.inj (some.inj (hnew.symm.trans hwb))
      exact hother j a w ha' hwa
    · exact h.unique j k a b key' w w' ha' hb' hwa hwb
  lookup_iff key' w := by
    by_cases hkey : key' = key
    · subst hkey
      rw [Finmap.lookup_insert]
      constructor
      · rintro hw
        obtain rfl := some.inj hw
        exact ⟨i, new, (getElem?_set_iff hold).mpr (.inl ⟨rfl, rfl⟩), hnew⟩
      · rintro ⟨j, slot, hj, hview⟩
        rcases (getElem?_set_iff hold).mp hj with ⟨rfl, rfl⟩ | ⟨hji, hj⟩
        · exact congrArg some (Prod.mk.inj (some.inj (hnew.symm.trans hview))).2
        · rcases hslot with ⟨v', hv'⟩ | ⟨-, habsent⟩
          · exact absurd (h.unique j i slot old key' w v' hj hold hview hv') hji
          · exact absurd (h.mem_iff.mpr ⟨j, slot, w, hj, hview⟩) habsent
    · rw [Finmap.lookup_insert_of_ne m hkey, h.lookup_iff]
      constructor
      · rintro ⟨j, slot, hj, hview⟩
        refine ⟨j, slot, (getElem?_set_iff hold).mpr (.inr ⟨?_, hj⟩), hview⟩
        rintro rfl
        obtain rfl := some.inj (hold.symm.trans hj)
        rcases hslot with ⟨v', hv'⟩ | ⟨hfree, -⟩
        · exact hkey (Prod.mk.inj (some.inj (hview.symm.trans hv'))).1
        · cases hfree.symm.trans hview
      · rintro ⟨j, slot, hj, hview⟩
        rcases (getElem?_set_iff hold).mp hj with ⟨rfl, rfl⟩ | ⟨-, hj⟩
        · exact absurd (Prod.mk.inj (some.inj (hview.symm.trans hnew))).1 hkey
        · exact ⟨j, slot, hj, hview⟩
  card := by
    have hcount := @countP_set' _ _ _ _ new (fun slot => (view slot).isSome) hold
    have hkeys : (m.insert key v).keys = Insert.insert key m.keys := by
      ext key'
      rw [Finset.mem_insert, Finmap.mem_keys, Finmap.mem_keys, Finmap.mem_insert]
    rw [hkeys]
    rw [hnew, isSome_some, if_pos rfl] at hcount
    rcases hslot with ⟨v', hv'⟩ | ⟨hfree, habsent⟩
    · have hmem : key ∈ m.keys := Finmap.mem_keys.mpr (h.mem_iff.mpr ⟨i, old, v', hold, hv'⟩)
      rw [hv', isSome_some, if_pos rfl] at hcount
      rw [Finset.insert_eq_of_mem hmem, h.card]
      omega
    · rw [hfree, isSome_none, if_neg Bool.false_ne_true] at hcount
      rw [Finset.card_insert_of_notMem fun hmem => habsent (Finmap.mem_keys.mp hmem), h.card]
      omega

theorem erase (hold : slots[i]? = some old) (hview : view old = some (key, v)) (hnew : view new = none) :
    Represents view (slots.set i new) (m.erase key) where
  unique j k a b key' w w' ha hb hwa hwb := by
    rcases (getElem?_set_iff hold).mp ha with ⟨rfl, rfl⟩ | ⟨hj, ha⟩
    · cases hnew.symm.trans hwa
    · rcases (getElem?_set_iff hold).mp hb with ⟨rfl, rfl⟩ | ⟨hk, hb⟩
      · cases hnew.symm.trans hwb
      · exact h.unique j k a b key' w w' ha hb hwa hwb
  lookup_iff key' w := by
    by_cases hkey : key' = key
    · subst hkey
      rw [Finmap.lookup_erase]
      constructor
      · intro hnone
        cases hnone
      · rintro ⟨j, slot, hj, hslot⟩
        rcases (getElem?_set_iff hold).mp hj with ⟨rfl, rfl⟩ | ⟨hji, hj⟩
        · cases hnew.symm.trans hslot
        · exact absurd (h.unique j i slot old key' w v hj hold hslot hview) hji
    · rw [Finmap.lookup_erase_ne hkey, h.lookup_iff]
      constructor
      · rintro ⟨j, slot, hj, hslot⟩
        refine ⟨j, slot, (getElem?_set_iff hold).mpr (.inr ⟨?_, hj⟩), hslot⟩
        rintro rfl
        obtain rfl := some.inj (hold.symm.trans hj)
        exact hkey (Prod.mk.inj (some.inj (hslot.symm.trans hview))).1
      · rintro ⟨j, slot, hj, hslot⟩
        rcases (getElem?_set_iff hold).mp hj with ⟨rfl, rfl⟩ | ⟨-, hj⟩
        · cases hnew.symm.trans hslot
        · exact ⟨j, slot, hj, hslot⟩
  card := by
    have hcount := @countP_set' _ _ _ _ new (fun slot => (view slot).isSome) hold
    rw [hnew, hview, isSome_none, isSome_some, if_pos rfl, if_neg Bool.false_ne_true] at hcount
    have hmem : key ∈ m.keys := Finmap.mem_keys.mpr (h.mem_iff.mpr ⟨i, old, v, hold, hview⟩)
    rw [Finmap.keys_erase, Finset.card_erase_of_mem hmem, h.card]
    omega

theorem card_le : m.keys.card ≤ slots.length :=
  h.card ▸ countP_le_length

theorem full_iff : m.keys.card = slots.length ↔ ∀ slot ∈ slots, view slot ≠ none := by
  rw [h.card, countP_eq_length]
  simp only [isSome_iff_ne_none]

theorem find?_view {p : σ → Bool} (hp : ∀ slot, p slot = true ↔ ∃ v, view slot = some (key, v)) :
    (slots.find? p).bind view = (m.lookup key).map fun v => (key, v) := by
  cases hfind : slots.find? p with
  | none =>
    have habsent : key ∉ m := by
      rw [h.mem_iff]
      rintro ⟨i, slot, v, hslot, hview⟩
      exact find?_eq_none.mp hfind slot (mem_of_getElem? hslot) ((hp slot).mpr ⟨v, hview⟩)
    rw [Finmap.lookup_eq_none.mpr habsent]
    rfl
  | some slot =>
    obtain ⟨v, hview⟩ := (hp slot).mp (find?_some hfind)
    obtain ⟨i, hi⟩ := getElem?_of_mem (mem_of_find?_eq_some hfind)
    rw [(h.lookup_iff key v).mpr ⟨i, slot, hi, hview⟩, bind_some, hview]
    rfl

end Represents

end SlotMap
