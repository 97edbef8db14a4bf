import JexOs.LockdepTables
import Mathlib.Data.Finset.Card

/-!
# The search for a cycle

What is in the queue has been reached and marked, each place once, so the queue has room for it. What is in
front of `qhead` has its neighbours in the queue.
-/

namespace JexOs.Lockdep.Tables

open List Option Function

/-- An edge of the matrix. -/
def Edge (edges : Edges) (i j : Nat) : Prop :=
  i < lockdepMaxLocks ∧ j < lockdepMaxLocks ∧ edges i j = true

structure Marked (edges : Edges) (target : Nat) (s : Search) : Prop where
  below : ∀ i ∈ s.queue, i < lockdepMaxLocks
  nodup : s.queue.Nodup
  visited : ∀ i, s.visited i = true ↔ i ∈ s.queue
  reached : ∀ i ∈ s.queue, Relation.ReflTransGen (Edge edges) target i

structure Searching (edges : Edges) (source target qhead : Nat) (s : Search) : Prop
    extends Marked edges target s where
  started : target ∈ s.queue
  passed : qhead ≤ s.queue.length
  closed : ∀ i ∈ s.queue.take qhead, i ≠ source ∧ ∀ j, Edge edges i j → j ∈ s.queue

section Search

variable {α : Type} {array : Nat → α} {edges : Edges} {source target qhead cur i j : Nat} {s : Search}

theorem slot_of_lt (h : i < lockdepMaxLocks) : slot array i = some (array i) := if_pos h

theorem setSlot_of_lt (h : i < lockdepMaxLocks) (x : α) :
    setSlot array i x = some (Function.update array i x) := if_pos h

theorem edgeAt_of_lt (hi : i < lockdepMaxLocks) (hj : j < lockdepMaxLocks) :
    edgeAt edges i j = some (edges i j) := if_pos ⟨hi, hj⟩

theorem setEdgeAt_of_lt (hi : i < lockdepMaxLocks) (hj : j < lockdepMaxLocks) (v : Bool) :
    setEdgeAt edges i j v = some (setEdge edges i j v) := if_pos ⟨hi, hj⟩

theorem length_le {q : List Nat} (hbelow : ∀ i ∈ q, i < lockdepMaxLocks) (hnodup : q.Nodup) :
    q.length ≤ lockdepMaxLocks := by
  rw [← toFinset_card_of_nodup hnodup, ← Finset.card_range lockdepMaxLocks]
  exact Finset.card_le_card fun i hi => Finset.mem_range.mpr (hbelow i (mem_toFinset.mp hi))

theorem Marked.enqueue (h : Marked edges target s) (hi : i < lockdepMaxLocks) (hnew : i ∉ s.queue)
    (hreached : Relation.ReflTransGen (Edge edges) target i) :
    ∃ s', enqueue s i = some s' ∧ s'.queue = s.queue ++ [i] ∧ Marked edges target s' := by
  have hbelow : ∀ k ∈ s.queue ++ [i], k < lockdepMaxLocks := by
    intro k hk
    rcases mem_append.mp hk with hk | hk
    · exact h.below k hk
    · exact mem_singleton.mp hk ▸ hi
  have hnodup : (s.queue ++ [i]).Nodup := by
    refine nodup_append.mpr ⟨h.nodup, nodup_singleton i, fun a ha b hb heq => hnew ?_⟩
    rw [← mem_singleton.mp hb, ← heq]
    exact ha
  have hroom : s.queue.length < lockdepMaxLocks := by
    have := length_le hbelow hnodup
    rw [length_append] at this
    exact this
  refine
    ⟨{ visited := Function.update s.visited i true
       queue := s.queue ++ [i] }, ?_, rfl, ?_⟩
  · simp only [Tables.enqueue, setSlot_of_lt hi, bind_eq_bind, bind_some, if_pos hroom]
  · refine
      { below := hbelow
        nodup := hnodup
        visited := fun k => ?_
        reached := fun k hk => ?_ }
    · rw [mem_append, mem_singleton, ← h.visited]
      dsimp only
      by_cases hk : k = i
      · rw [hk, update_self]
        exact iff_of_true rfl (.inr rfl)
      · rw [update_of_ne hk, or_iff_left hk]
    · rcases mem_append.mp hk with hk | hk
      · exact h.reached k hk
      · exact mem_singleton.mp hk ▸ hreached

theorem Marked.visit (h : Marked edges target s) (hcur : cur ∈ s.queue) (hi : i < lockdepMaxLocks) :
    ∃ s', visit edges cur s i = some s' ∧ s.queue <+: s'.queue ∧ Marked edges target s' ∧
      (edges cur i = true → i ∈ s'.queue) := by
  have hlt := h.below cur hcur
  simp only [Tables.visit, edgeAt_of_lt hlt hi, slot_of_lt hi, bind_eq_bind, bind_some]
  by_cases hnew : edges cur i = true ∧ i ∉ s.queue
  · have hseen : s.visited i = false := Bool.eq_false_iff.mpr fun heq => hnew.2 ((h.visited i).mp heq)
    obtain ⟨s', hs', hqueue, hmarked⟩ := h.enqueue hi hnew.2 ((h.reached cur hcur).tail ⟨hlt, hi, hnew.1⟩)
    simp only [hnew.1, hseen, Bool.not_false, Bool.and_self, if_true]
    refine ⟨s', hs', ⟨[i], hqueue.symm⟩, hmarked, fun _ => ?_⟩
    rw [hqueue]
    exact mem_append_right _ mem_cons_self
  · have hskip : (edges cur i && !s.visited i) = false := by
      rw [Bool.and_eq_false_iff, Bool.not_eq_false', h.visited, Bool.eq_false_iff]
      exact not_and_or.mp hnew |>.imp id not_not.mp
    rw [hskip, if_neg Bool.false_ne_true]
    exact ⟨s, rfl, prefix_refl _, h, fun hedge => by_contra fun hmem => hnew ⟨hedge, hmem⟩⟩

theorem Marked.visits {is : List Nat} (h : Marked edges target s) (hcur : cur ∈ s.queue)
    (his : ∀ i ∈ is, i < lockdepMaxLocks) :
    ∃ s', is.foldlM (Tables.visit edges cur) s = some s' ∧ s.queue <+: s'.queue ∧ Marked edges target s' ∧
      ∀ i ∈ is, edges cur i = true → i ∈ s'.queue := by
  induction is generalizing s with
  | nil => exact ⟨s, rfl, prefix_refl _, h, nofun⟩
  | cons i is ih =>
    obtain ⟨s₁, hvisit, hleading, hmarked, hedge⟩ := h.visit hcur (his i mem_cons_self)
    obtain ⟨s₂, hfold, hleading', hmarked', hedges⟩ :=
      ih hmarked (hleading.subset hcur) fun k hk => his k (mem_cons_of_mem _ hk)
    rw [foldlM_cons, hvisit]
    refine ⟨s₂, hfold, hleading.trans hleading', hmarked', fun k hk hedge' => ?_⟩
    rcases mem_cons.mp hk with rfl | hk
    · exact hleading'.subset (hedge hedge')
    · exact hedges k hk hedge'

theorem Searching.reaches (h : Searching edges source target qhead s) (hall : s.queue.length ≤ qhead)
    (hpath : Relation.ReflTransGen (Edge edges) target i) : i ∈ s.queue ∧ i ≠ source := by
  have hclosed := h.closed
  rw [take_of_length_le hall] at hclosed
  have hmem : i ∈ s.queue := by
    induction hpath with
    | refl => exact h.started
    | tail _ hedge ih => exact (hclosed _ ih).2 _ hedge
  exact ⟨hmem, (hclosed i hmem).1⟩

theorem Searching.loop {fuel : Nat} (h : Searching edges source target qhead s)
    (hfuel : lockdepMaxLocks < qhead + fuel) : ∃ b, searchLoop edges source fuel qhead s = some b ∧
      (b = true ↔ Relation.ReflTransGen (Edge edges) target source) := by
  have hlength := length_le h.below h.nodup
  have hpassed := h.passed
  induction fuel generalizing qhead s with
  | zero => omega
  | succ fuel ih =>
    rw [searchLoop]
    cases hget : s.queue[qhead]? with
    | none =>
      refine ⟨false, rfl, iff_of_false Bool.false_ne_true fun hpath => ?_⟩
      exact (h.reaches (List.getElem?_eq_none_iff.mp hget) hpath).2 rfl
    | some cur =>
      have hcur := mem_of_getElem? hget
      dsimp only
      by_cases heq : cur = source
      · rw [if_pos heq]
        exact ⟨true, rfl, iff_of_true rfl (heq ▸ h.reached cur hcur)⟩
      · obtain ⟨s', hvisits, hleading, hmarked, hedges⟩ :=
          h.toMarked.visits hcur fun i (hi : i ∈ places) => mem_range.mp hi
        rw [if_neg heq, hvisits]
        have hlt := (List.getElem?_eq_some_iff.mp hget).1
        have hle := hleading.length_le
        refine ih ?_ (by omega) (length_le hmarked.below hmarked.nodup) (by omega)
        refine { hmarked with
          started := hleading.subset h.started
          passed := by omega
          closed := fun i hi => ?_ }
        have hsubset := hleading.subset
        obtain ⟨rest, hrest⟩ := hleading
        rw [← hrest, take_append_of_le_length (by omega), take_add_one, hget] at hi
        rcases mem_append.mp hi with hi | hi
        · exact ⟨(h.closed i hi).1, fun j hj => hsubset ((h.closed i hi).2 j hj)⟩
        · cases mem_singleton.mp hi
          exact ⟨heq, fun j hj => hedges j (mem_range.mpr hj.2.1) hj.2.2⟩

theorem checkDeadlock_spec (edges : Edges) (htarget : target < lockdepMaxLocks) :
    ∃ b, checkDeadlock edges source target = some b ∧
      (b = true ↔ Relation.ReflTransGen (Edge edges) target source) := by
  have hempty : Marked edges target
      { visited := fun _ => false
        queue := [] } :=
    { below := nofun
      nodup := nodup_nil
      visited := fun _ => iff_of_false Bool.false_ne_true not_mem_nil
      reached := nofun }
  obtain ⟨s, henqueue, hqueue, hmarked⟩ := hempty.enqueue htarget not_mem_nil Relation.ReflTransGen.refl
  rw [checkDeadlock, henqueue]
  refine Searching.loop { hmarked with
    started := by
      rw [hqueue]
      exact mem_cons_self
    passed := Nat.zero_le _
    closed := nofun } (Nat.lt_succ_self _)

/-- **The search for a cycle.** It answers whether there is a path, so no index leaves its array, and the queue
has room for what is put into it. -/
theorem checkDeadlock_iff (edges : Edges) (_ : source < lockdepMaxLocks) (htarget : target < lockdepMaxLocks) :
    (checkDeadlock edges source target = some true ↔ Relation.ReflTransGen (Edge edges) target source) ∧
      (checkDeadlock edges source target = some false ↔
      ¬ Relation.ReflTransGen (Edge edges) target source) := by
  obtain ⟨b, hb, hiff⟩ := @checkDeadlock_spec source target edges htarget
  rw [hb, ← hiff, some_inj, some_inj, Bool.not_eq_true]
  exact ⟨Iff.rfl, Iff.rfl⟩

theorem checkDeadlock_iff_edge : checkDeadlock (fun i j => i == 3 && j == 5) 5 3 = some true :=
  (checkDeadlock_iff _ (by decide) (by decide)).1.mpr
    (Relation.ReflTransGen.single ⟨by decide, by decide, rfl⟩)

end Search

end JexOs.Lockdep.Tables
