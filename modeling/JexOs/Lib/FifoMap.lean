import Mathlib.Data.Finset.Card
import Mathlib.Data.List.DropRight

/-!
# Bounded maps that forget their oldest key

A map with room for `cap` keys. A new key goes to the end, and the first one is dropped when there is no room.
-/

namespace FifoMap

open List

variable {κ ν : Type} [DecidableEq κ]

/-- The keys, oldest first, with their values. -/
abbrev Queue (κ ν : Type) := List (κ × ν)

def keys (q : Queue κ ν) : List κ := q.map Prod.fst

def find (q : Queue κ ν) (k : κ) : Option ν := (q.find? fun e => e.1 = k).map Prod.snd

def update (q : Queue κ ν) (k : κ) (v : ν) : Queue κ ν := q.map fun e => if e.1 = k then (k, v) else e

def add (cap : Nat) (q : Queue κ ν) (k : κ) (v : ν) : Queue κ ν :=
  if k ∈ keys q then update q k v else (q ++ [(k, v)]).rtake cap

def addAll (cap : Nat) (q : Queue κ ν) (adds : List (κ × ν)) : Queue κ ν :=
  adds.foldl (fun q e => add cap q e.1 e.2) q

/-- The keys that were absent when they were added, in their order. -/
def fresh (cap : Nat) (q : Queue κ ν) : List (κ × ν) → List κ
  | [] => []
  | e :: rest => (if e.1 ∈ keys q then [] else [e.1]) ++ fresh cap (add cap q e.1 e.2) rest

def latest (adds : List (κ × ν)) (k : κ) : Option ν :=
  (adds.reverse.find? fun e => e.1 = k).map Prod.snd

def behindLast (k : κ) (l : List κ) : List κ := l.rtakeWhile (· ≠ k)

section Last

variable {α β : Type} {n : Nat} {l : List α}

theorem length_rtake_le : (l.rtake n).length ≤ n := by
  rw [List.rtake, length_drop]
  omega

theorem rtake_of_length_le (h : l.length ≤ n) : l.rtake n = l := by
  rw [List.rtake, Nat.sub_eq_zero_of_le h, drop_zero]

theorem map_rtake (f : α → β) : (l.rtake n).map f = (l.map f).rtake n := by
  rw [List.rtake, List.rtake, map_drop, length_map]

theorem rtake_suffix : l.rtake n <:+ l := drop_suffix _ _

theorem rtake_rtake_concat (a : α) : (l.rtake n ++ [a]).rtake n = (l ++ [a]).rtake n := by
  cases n with
  | zero => rw [rtake_zero, rtake_zero]
  | succ n =>
    rw [rtake_concat_succ, rtake_concat_succ]
    refine congrArg (· ++ [a]) ?_
    rw [rtake_eq_reverse_take_reverse, rtake_eq_reverse_take_reverse,
      rtake_eq_reverse_take_reverse, reverse_reverse, take_take,
      Nat.min_eq_left (Nat.le_succ n)]

end Last

section Keys

variable {cap : Nat} {q : Queue κ ν} {k : κ} {v : ν}

theorem keys_update : keys (update q k v) = keys q := by
  unfold keys update
  rw [map_map]
  refine map_congr_left fun e _ => ?_
  rw [Function.comp_apply]
  split
  · rename_i heq
    exact heq.symm
  · rfl

theorem keys_add : keys (add cap q k v) = if k ∈ keys q then keys q else (keys q ++ [k]).rtake cap := by
  unfold add
  split
  · exact keys_update
  · unfold keys
    rw [map_rtake, map_append]
    rfl

theorem nodup_keys_add (h : (keys q).Nodup) : (keys (add cap q k v)).Nodup := by
  rw [keys_add]
  split
  · exact h
  · rename_i hnew
    refine Nodup.sublist rtake_suffix.sublist ?_
    rw [nodup_append]
    refine ⟨h, nodup_singleton k, fun a ha b hb hab => hnew ?_⟩
    rw [← mem_singleton.mp hb, ← hab]
    exact ha

theorem length_add_le (h : q.length ≤ cap) : (add cap q k v).length ≤ cap := by
  unfold add
  split
  · rw [update, length_map]
    exact h
  · exact length_rtake_le

end Keys

section Find

variable {cap : Nat} {q : Queue κ ν} {k k' : κ} {v : ν}

theorem find_eq_none_iff : find q k = none ↔ k ∉ keys q := by
  unfold find keys
  rw [Option.map_eq_none_iff, find?_eq_none, mem_map]
  refine ⟨fun h ⟨e, he, hk⟩ => h e he (decide_eq_true hk), fun h e he hk => ?_⟩
  exact h ⟨e, he, of_decide_eq_true hk⟩

theorem find_cons (e : κ × ν) : find (e :: q) k = if e.1 = k then some e.2 else find q k := by
  unfold find
  rw [find?_cons]
  split
  · rename_i h
    rw [if_pos (of_decide_eq_true h)]
    rfl
  · rename_i h
    rw [if_neg (of_decide_eq_false h)]

theorem find_append (q' : Queue κ ν) : find (q ++ q') k = if k ∈ keys q then find q k else find q' k := by
  induction q with
  | nil => rfl
  | cons e q ih =>
    rw [cons_append, find_cons, find_cons, ih]
    by_cases heq : e.1 = k
    · rw [if_pos heq, if_pos heq, if_pos]
      rw [← heq]
      exact mem_cons_self
    · rw [if_neg heq, if_neg heq]
      have hmem : k ∈ keys (e :: q) ↔ k ∈ keys q := by
        unfold keys
        rw [map_cons, mem_cons, or_iff_right (fun h => heq h.symm)]
      simp only [hmem]

theorem find_update_of_ne (hne : k' ≠ k) : find (update q k v) k' = find q k' := by
  induction q with
  | nil => rfl
  | cons e q ih =>
    rw [update, map_cons, find_cons, find_cons]
    by_cases heq : e.1 = k
    · rw [if_pos heq, if_neg (Ne.symm hne), if_neg fun h => hne (h.symm.trans heq)]
      exact ih
    · rw [if_neg heq]
      exact if_congr Iff.rfl rfl ih

theorem find_update_self (hmem : k ∈ keys q) : find (update q k v) k = some v := by
  induction q with
  | nil => cases hmem
  | cons e q ih =>
    rw [update, map_cons, find_cons]
    by_cases heq : e.1 = k
    · rw [if_pos heq, if_pos rfl]
    · rw [if_neg heq, if_neg heq]
      refine ih ?_
      rcases mem_cons.mp hmem with h | h
      · exact absurd h.symm heq
      · exact h

theorem update_eq_modify {i : Nat} (h : (keys q).Nodup) (hfind : q.findIdx? (·.1 = k) = some i) :
    update q k v = q.modify i fun e => (e.1, v) := by
  induction q generalizing i with
  | nil => cases hfind
  | cons e q ih =>
    obtain ⟨hhead, htail⟩ := nodup_cons.mp h
    rw [findIdx?_cons] at hfind
    rw [update, map_cons]
    split at hfind
    · rename_i heq
      cases hfind
      have heq := of_decide_eq_true heq
      rw [if_pos heq, modify_zero_cons, heq, ← heq]
      refine congrArg _ ((map_congr_left fun e' he' => if_neg fun heq' => hhead ?_).trans (map_id q))
      rw [← heq']
      exact mem_map_of_mem he'
    · rename_i heq
      obtain ⟨j, hj, rfl⟩ := Option.map_eq_some_iff.mp hfind
      rw [if_neg (of_decide_eq_false (Bool.eq_false_of_not_eq_true heq)), modify_succ_cons]
      exact congrArg _ (ih htail hj)

theorem find_suffix {q' : Queue κ ν} (h : (keys q).Nodup) (hsuffix : q' <:+ q)
    (hmem : k ∈ keys q') : find q k = find q' k := by
  obtain ⟨p, rfl⟩ := hsuffix
  rw [find_append, if_neg]
  intro hp
  unfold keys at h
  rw [map_append] at h
  exact (nodup_append.mp h).2.2 k hp k hmem rfl

theorem find_add (h : (keys q).Nodup) (hmem : k' ∈ keys (add cap q k v)) :
    find (add cap q k v) k' = if k' = k then some v else find q k' := by
  unfold add at hmem ⊢
  split at hmem
  · rename_i hk
    rw [if_pos hk]
    by_cases heq : k' = k
    · rw [heq, if_pos rfl, find_update_self hk]
    · rw [if_neg heq, find_update_of_ne heq]
  · rename_i hk
    have hnodup : (keys (q ++ [(k, v)])).Nodup := by
      have hadd := @nodup_keys_add _ _ _ (q.length + 1) _ k v h
      rw [add, if_neg hk, rtake_of_length_le (by simp)] at hadd
      exact hadd
    rw [if_neg hk, ← find_suffix hnodup rtake_suffix hmem, find_append]
    by_cases heq : k' = k
    · rw [heq, if_neg hk, if_pos rfl, find_cons, if_pos rfl]
    · split
      · rfl
      · rename_i hk'
        rw [find_cons, if_neg (Ne.symm heq), find_eq_none_iff.mpr hk']
        rfl

end Find

section History

variable {cap : Nat} {adds : List (κ × ν)} {k : κ} {v : ν}

theorem addAll_append (q : Queue κ ν) (e : κ × ν) :
    addAll cap q (adds ++ [e]) = add cap (addAll cap q adds) e.1 e.2 := by
  rw [addAll, foldl_append]
  rfl

theorem fresh_append (q : Queue κ ν) (e : κ × ν) : fresh cap q (adds ++ [e]) =
    fresh cap q adds ++ if e.1 ∈ keys (addAll cap q adds) then [] else [e.1] := by
  induction adds generalizing q with
  | nil =>
    rw [nil_append, fresh, fresh, fresh, append_nil, nil_append]
    rfl
  | cons first rest ih =>
    rw [cons_append, fresh, ih, fresh, append_assoc]
    rfl

theorem latest_append (e : κ × ν) : latest (adds ++ [e]) k = if e.1 = k then some e.2 else latest adds k := by
  unfold latest
  rw [reverse_append]
  exact find_cons e

/-- After a history from the empty queue: the keys are the last new ones, each with its latest
value. -/
structure Follows (cap : Nat) (adds : List (κ × ν)) (q : Queue κ ν) : Prop where
  keys_eq : keys q = (fresh cap [] adds).rtake cap
  nodup : (keys q).Nodup
  length_le : q.length ≤ cap
  value : ∀ k ∈ keys q, find q k = latest adds k
  added : ∀ k, k ∈ fresh cap [] adds ↔ k ∈ adds.map Prod.fst

theorem follows_addAll (cap : Nat) (adds : List (κ × ν)) : Follows cap adds (addAll cap [] adds) := by
  induction adds using List.reverseRecOn with
  | nil =>
    exact
      { keys_eq := (rtake_of_length_le (Nat.zero_le _)).symm
        nodup := nodup_nil
        length_le := Nat.zero_le _
        value := fun k hk => by cases hk
        added := fun k => Iff.rfl }
  | append_singleton adds e ih =>
    rw [addAll_append]
    refine
      { keys_eq := ?_
        nodup := nodup_keys_add ih.nodup
        length_le := length_add_le ih.length_le
        value := fun k hk => ?_
        added := fun k => ?_ }
    · rw [keys_add, fresh_append]
      split
      · rw [append_nil, ih.keys_eq]
      · rw [ih.keys_eq, rtake_rtake_concat]
    · rw [find_add ih.nodup hk, latest_append]
      by_cases heq : k = e.1
      · rw [if_pos heq, if_pos heq.symm]
      · rw [if_neg heq, if_neg (Ne.symm heq)]
        refine ih.value k ?_
        rw [keys_add] at hk
        split at hk
        · exact hk
        · rcases mem_append.mp (rtake_suffix.subset hk) with hk | hk
          · exact hk
          · exact absurd (mem_singleton.mp hk) heq
    · rw [fresh_append, mem_append, ih.added, map_append, mem_append]
      refine or_congr_right' fun hk => ?_
      split
      · rename_i hmem
        rw [mem_map] at hk
        refine ⟨fun h => (by cases h), fun h => absurd (mem_singleton.mp h) ?_⟩
        rintro rfl
        rw [ih.keys_eq] at hmem
        exact hk (mem_map.mp ((ih.added _).mp (rtake_suffix.subset hmem)))
      · exact Iff.rfl

theorem mem_rtake_iff (l : List κ) : k ∈ l.rtake cap ↔ k ∈ l ∧ (behindLast k l).length < cap := by
  induction l using List.reverseRecOn generalizing cap with
  | nil =>
    rw [rtake_nil]
    exact ⟨fun h => (by cases h), fun h => h.1⟩
  | append_singleton l last ih =>
    cases cap with
    | zero =>
      rw [rtake_zero]
      exact ⟨fun h => (by cases h), fun h => absurd h.2 (Nat.not_lt_zero _)⟩
    | succ n =>
      rw [rtake_concat_succ, mem_append, mem_append, mem_singleton, behindLast]
      by_cases heq : k = last
      · simp [heq]
      · rw [rtakeWhile_concat_pos _ _ _ (by simp [Ne.symm heq]), ih, length_append,
          length_singleton, Nat.add_lt_add_iff_right]
        simp [heq, behindLast]

theorem behindLast_suffix (l : List κ) : behindLast k l <:+ l := rtakeWhile_suffix _ _

theorem rtake_suffix_behindLast {l : List κ} (h : cap ≤ (behindLast k l).length) :
    l.rtake cap <:+ behindLast k l :=
  suffix_of_suffix_length_le rtake_suffix (behindLast_suffix l)
    (length_rtake_le.trans h)

/-- A key has its latest value, unless as many other keys as there is room for have been new since it
was new for the last time. -/
theorem find_addAll (cap : Nat) (adds : List (κ × ν)) (k : κ) : find (addAll cap [] adds) k =
    if cap ≤ (behindLast k (fresh cap [] adds)).toFinset.card then none else latest adds k := by
  have hfollows := follows_addAll cap adds
  by_cases hmem : k ∈ keys (addAll cap [] adds)
  · rw [hfollows.value k hmem, if_neg]
    rw [hfollows.keys_eq, mem_rtake_iff] at hmem
    exact not_le.mpr ((toFinset_card_le _).trans_lt hmem.2)
  · rw [find_eq_none_iff.mpr hmem]
    split
    · rfl
    · rename_i hfew
      by_cases hadded : k ∈ adds.map Prod.fst
      · -- enough keys behind the last occurrence, and the last ones of them are different
        exfalso
        have hlong : cap ≤ (behindLast k (fresh cap [] adds)).length := by
          rw [hfollows.keys_eq, mem_rtake_iff, hfollows.added] at hmem
          exact Nat.le_of_not_lt fun h => hmem ⟨hadded, h⟩
        have hsuffix := rtake_suffix_behindLast hlong
        have hlength : ((fresh cap [] adds).rtake cap).length = cap := by
          have hle := (behindLast_suffix (k := k) (fresh cap [] adds)).length_le
          rw [List.rtake, length_drop]
          omega
        refine hfew ?_
        calc cap = ((fresh cap [] adds).rtake cap).toFinset.card := by
              rw [toFinset_card_of_nodup (hfollows.keys_eq ▸ hfollows.nodup), hlength]
          _ ≤ _ := Finset.card_le_card fun a ha =>
              mem_toFinset.mpr (hsuffix.subset (mem_toFinset.mp ha))
      · refine (find_eq_none_iff.mpr ?_).symm
        unfold keys
        rw [map_reverse, mem_reverse]
        exact hadded

end History

end FifoMap
