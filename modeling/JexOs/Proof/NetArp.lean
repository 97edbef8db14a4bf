import JexOs.Net
import JexOs.Lib.FifoMap

/-!
# The cache of hardware addresses

The four slots hold a bounded map that forgets its oldest key: the valid entries come first, oldest
first, and every address has at most one of them.
-/

namespace JexOs.Net

open FifoMap List Option

def arpCacheSize : Nat := 4

def emptyCache : List ArpEntry :=
  List.replicate arpCacheSize
    { ip := 0
      mac := fun _ => 0
      valid := false }

def cacheAfter (adds : List (UInt32 × Mac)) : List ArpEntry :=
  adds.foldl (fun cache e => arpAdd cache e.1 e.2) emptyCache

def inserted (cache : List ArpEntry) : List (UInt32 × Mac) → List UInt32
  | [] => []
  | e :: rest =>
    (if arpFind cache e.1 = none then [e.1] else []) ++ inserted (arpAdd cache e.1 e.2) rest

def lookup (cache : List ArpEntry) (ip : UInt32) : Option Mac :=
  (arpFind cache ip).bind fun i => cache[i]?.map (·.mac)

section Slots

variable {cache : List ArpEntry} {q : Queue UInt32 Mac} {ip : UInt32} {mac : Mac}

def entryOf (e : UInt32 × Mac) : ArpEntry :=
  { ip := e.1
    mac := e.2
    valid := true }

def Holds (cache : List ArpEntry) (q : Queue UInt32 Mac) : Prop :=
  ∃ blank, cache = q.map entryOf ++ blank ∧ (∀ entry ∈ blank, entry.valid = false) ∧
    cache.length = arpCacheSize

theorem holds_emptyCache : Holds emptyCache [] := by
  refine ⟨emptyCache, rfl, fun entry hmem => ?_, rfl⟩
  rw [emptyCache, mem_replicate] at hmem
  rw [hmem.2]

theorem arpFind_entries (blank : List ArpEntry) (hblank : ∀ entry ∈ blank, entry.valid = false) :
    arpFind (q.map entryOf ++ blank) ip = q.findIdx? fun e => e.1 = ip := by
  have hnone : blank.findIdx? (fun entry => entry.valid && entry.ip == ip) = none := by
    rw [findIdx?_eq_none_iff]
    intro entry hmem
    rw [hblank entry hmem, Bool.false_and]
  unfold arpFind
  rw [findIdx?_append, hnone, findIdx?_map]
  rw [map_none, or_none]
  refine congrArg (List.findIdx? · q) (funext fun e => ?_)
  exact (Bool.true_and _).trans (Bool.beq_eq_decide_eq _ _)

theorem Holds.arpFind (h : Holds cache q) : arpFind cache ip = q.findIdx? (·.1 = ip) := by
  obtain ⟨blank, rfl, hblank, -⟩ := h
  exact arpFind_entries blank hblank

theorem Holds.arpFind_eq_none (h : Holds cache q) : Net.arpFind cache ip = none ↔ ip ∉ keys q := by
  rw [h.arpFind, findIdx?_eq_none_iff, FifoMap.keys, List.mem_map]
  refine ⟨fun hall ⟨e, he, heq⟩ => ?_, fun hnone e he => ?_⟩
  · exact absurd heq (of_decide_eq_false (hall e he))
  · exact decide_eq_false fun heq => hnone ⟨e, he, heq⟩

theorem Holds.lookup (h : Holds cache q) : lookup cache ip = find q ip := by
  rw [Net.lookup, h.arpFind, find, find?_eq_bind_findIdx?_getElem?, Option.map_bind]
  obtain ⟨blank, rfl, -, -⟩ := h
  refine Option.bind_congr fun i hi => ?_
  have hlt := (findIdx?_eq_some_iff_getElem.mp hi).1
  rw [getElem?_append_left (by rw [length_map]; exact hlt), getElem?_map, Option.map_map]
  rfl

theorem modify_append_left {α : Type} {l l' : List α} {i : Nat} {f : α → α} (h : i < l.length) :
    (l ++ l').modify i f = l.modify i f ++ l' := by
  refine ext_getElem? fun j => ?_
  rw [getElem?_modify, getElem?_append, getElem?_append, length_modify, getElem?_modify]
  by_cases hj : j < l.length
  · rw [if_pos hj, if_pos hj]
  · rw [if_neg hj, if_neg hj]
    refine (congrArg (· <$> _) (funext fun a => if_neg ?_)).trans (id_map _)
    omega

theorem findIdx?_free (blank : List ArpEntry) (hblank : ∀ entry ∈ blank, entry.valid = false) :
    (q.map entryOf ++ blank).findIdx? (fun entry => !entry.valid) =
      if blank = [] then none else some q.length := by
  rw [findIdx?_append, findIdx?_map]
  have hnone : q.findIdx? ((fun entry : ArpEntry => !entry.valid) ∘ entryOf) = none := by
    rw [findIdx?_eq_none_iff]
    exact fun e _ => rfl
  rw [hnone, none_or, length_map]
  cases blank with
  | nil => rfl
  | cons first rest =>
    rw [findIdx?_cons, hblank first mem_cons_self, if_pos Bool.not_false, map_some,
      if_neg (cons_ne_nil _ _), Nat.zero_add]

theorem Holds.add (h : Holds cache q) (hnodup : (keys q).Nodup) :
    Holds (arpAdd cache ip mac) (add arpCacheSize q ip mac) := by
  unfold arpAdd FifoMap.add
  cases hfind : Net.arpFind cache ip with
  | some i =>
    have hmem : ip ∈ keys q := by
      by_contra hnone
      rw [h.arpFind_eq_none.mpr hnone] at hfind
      cases hfind
    rw [if_pos hmem]
    rw [h.arpFind] at hfind
    rw [update_eq_modify hnodup hfind]
    have hlt := (findIdx?_eq_some_iff_getElem.mp hfind).1
    obtain ⟨blank, rfl, hblank, hlength⟩ := h
    refine ⟨blank, ?_, hblank, ?_⟩
    · dsimp only
      rw [modify_append_left (by rw [length_map]; exact hlt)]
      refine congrArg (· ++ blank) (ext_getElem? fun j => ?_)
      rw [getElem?_modify, getElem?_map, getElem?_map, getElem?_modify]
      cases q[j]? with
      | none => rfl
      | some e =>
        refine congrArg some ?_
        dsimp only
        split
        · rfl
        · rfl
    · rw [length_modify]
      exact hlength
  | none =>
    rw [if_neg (h.arpFind_eq_none.mp hfind)]
    obtain ⟨blank, rfl, hblank, hlength⟩ := h
    dsimp only
    rw [findIdx?_free blank hblank]
    rw [length_append, length_map] at hlength
    cases blank with
    | nil =>
      rw [if_pos rfl, append_nil]
      rw [length_nil, Nat.add_zero] at hlength
      refine ⟨[], ?_, fun entry hmem => (by cases hmem), ?_⟩
      · rw [List.rtake, append_nil, map_drop, map_append, length_append,
          hlength, length_singleton, Nat.add_sub_cancel_left,
          drop_append_of_le_length (by rw [length_map, hlength]; decide)]
        rfl
      · rw [length_append, length_drop, length_map, hlength]
        rfl
    | cons first rest =>
      rw [if_neg (cons_ne_nil _ _)]
      rw [length_cons] at hlength
      refine ⟨rest, ?_, fun entry hmem => hblank entry (mem_cons_of_mem _ hmem), ?_⟩
      · rw [rtake_of_length_le (by rw [length_append, length_singleton]; omega)]
        dsimp only
        rw [set_append_right _ _ (by rw [length_map]), length_map, Nat.sub_self,
          set_cons_zero, map_append, append_assoc]
        rfl
      · dsimp only
        rw [length_set, length_append, length_map, length_cons]
        exact hlength

end Slots

section History

variable (adds : List (UInt32 × Mac))

theorem holds_cacheAfter : Holds (cacheAfter adds) (addAll arpCacheSize [] adds) := by
  induction adds using List.reverseRecOn with
  | nil => exact holds_emptyCache
  | append_singleton adds e ih =>
    rw [addAll_append, cacheAfter, foldl_append]
    exact ih.add (follows_addAll arpCacheSize adds).nodup

theorem inserted_eq_fresh : inserted emptyCache adds = fresh arpCacheSize [] adds := by
  have hgeneral : ∀ (adds : List (UInt32 × Mac)) {cache q}, Holds cache q → (keys q).Nodup →
      inserted cache adds = fresh arpCacheSize q adds := by
    intro adds
    induction adds with
    | nil => exact fun _ _ => rfl
    | cons e rest ih =>
      intro cache q h hnodup
      rw [inserted, fresh, ih (h.add hnodup) (nodup_keys_add hnodup)]
      refine congrArg (· ++ _) ?_
      by_cases hmem : e.1 ∈ keys q
      · rw [if_pos hmem, if_neg fun hnone => h.arpFind_eq_none.mp hnone hmem]
      · rw [if_neg hmem, if_pos (h.arpFind_eq_none.mpr hmem)]
  exact hgeneral adds holds_emptyCache nodup_nil

/-- A lookup gives what was learnt last, unless four other addresses have been inserted since. -/
theorem cacheAfter_refines (ip : UInt32) : (cacheAfter adds).length = arpCacheSize ∧
      ((cacheAfter adds).filter (·.valid)).Pairwise (fun a b => a.ip ≠ b.ip) ∧
      lookup (cacheAfter adds) ip = if 4 ≤ (behindLast ip (inserted emptyCache adds)).toFinset.card then none
        else latest adds ip := by
  have hholds := holds_cacheAfter adds
  refine ⟨?_, ?_, ?_⟩
  · obtain ⟨-, -, -, hlength⟩ := hholds
    exact hlength
  · have hnodup := (follows_addAll arpCacheSize adds).nodup
    obtain ⟨blank, heq, hblank, -⟩ := hholds
    have hnone : blank.filter (·.valid) = [] := by
      rw [filter_eq_nil_iff]
      intro entry hmem
      rw [hblank entry hmem]
      exact Bool.false_ne_true
    rw [heq, filter_append, hnone, append_nil,
      filter_eq_self.mpr fun entry hmem => ?_, pairwise_map]
    · exact pairwise_map.mp hnodup
    · obtain ⟨e, -, rfl⟩ := mem_map.mp hmem
      rfl
  · rw [hholds.lookup, inserted_eq_fresh]
    exact find_addAll arpCacheSize adds ip

end History

end JexOs.Net
