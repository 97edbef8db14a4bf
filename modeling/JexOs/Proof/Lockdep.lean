import JexOs.Lockdep
import Mathlib.Data.Finset.Card

/-!
# Lock orders

Pushing a lock clears the row and the column of its place, and with them the orders that were just
recorded. Between calls the matrix is therefore empty, and nothing is ever found.
-/

namespace JexOs.Lockdep

open List

/-- How often a lock is held: a release of a lock that is not held does nothing. -/
def heldDepth (l : Lock) : List Event → Nat :=
  List.foldl (fun n event =>
    match event with
    | .acquire l' _ => if l' = l then n + 1 else n
    | .release l' => if l' = l then n - 1 else n) 0

def AtMost16Held (events : List Event) : Prop :=
  ∀ p, p <+: events → ∃ locks : Finset Lock, locks.card ≤ 16 ∧ ∀ l, 0 < heldDepth l p → l ∈ locks

/-- At the end of a history a lock is acquired while another one is held. -/
def Orders (first second : Lock) (p : List Event) : Prop :=
  ∃ before ip, p = before ++ [Event.acquire second ip] ∧ 0 < heldDepth first before

/-- The last event acquires a lock while another one is held that was acquired before while the first
one was held. -/
def Inverts (p : List Event) : Prop :=
  ∃ a b, a ≠ b ∧ Orders b a p ∧ ∃ earlier, earlier <+: p ∧ Orders a b earlier

def Detects (events : List Event) : Prop :=
  ∀ p, p <+: events → Inverts p → ∃ v, run p = some v ∧ v.reports ≠ []

section Held

variable {l l' : Lock} {ip : UInt32} {p : List Event}

theorem heldDepth_acquire :
    heldDepth l (p ++ [.acquire l' ip]) = if l' = l then heldDepth l p + 1 else heldDepth l p := by
  rw [heldDepth, foldl_append]
  rfl

theorem heldDepth_release : heldDepth l (p ++ [.release l']) = if l' = l then heldDepth l p - 1
      else heldDepth l p := by
  rw [heldDepth, foldl_append]
  rfl

end Held

section Matrix

variable {edges : Edges} {source target : Nat}

def noEdges : Edges := fun _ _ => false

theorem checkDeadlock_of_row (hne : target ≠ source) (hrow : ∀ j, edges target j = false) :
    checkDeadlock edges source target = false := by
  have hnone : neighbours edges (fun i => i == target) target = [] := by
    rw [neighbours, filter_eq_nil_iff]
    intro i _
    rw [hrow, Bool.false_and]
    exact Bool.false_ne_true
  rw [checkDeadlock, search, if_neg hne, hnone, nil_append, search]

variable {l : Lock} {ip : UInt32} {new : Nat} {v : Validator}

def RowsEmpty (new : Nat) (v : Validator) : Prop := ∀ i j, new ≤ i ∨ j ≠ new → v.edges i j = false

theorem recordOrder_spec {place : Nat × Held} (h : RowsEmpty new v) (hplace : place.1 < new) :
    (recordOrder l ip new v place).stack = v.stack ∧ (recordOrder l ip new v place).reports = v.reports ∧
      RowsEmpty new (recordOrder l ip new v place) := by
  unfold recordOrder
  dsimp only
  split
  · exact ⟨rfl, rfl, h⟩
  · have hset : ∀ i j, new ≤ i ∨ j ≠ new → setEdge v.edges place.1 new true i j = false := by
      intro i j hij
      rw [setEdge, if_neg (by omega)]
      exact h i j hij
    rw [checkDeadlock_of_row hplace.ne' fun j => hset new j (.inl le_rfl),
      if_neg Bool.false_ne_true]
    exact ⟨rfl, rfl, hset⟩

theorem recordOrders_spec (places : List (Nat × Held)) (h : RowsEmpty new v)
    (hplaces : ∀ place ∈ places, place.1 < new) : (places.foldl (recordOrder l ip new) v).stack = v.stack ∧
      (places.foldl (recordOrder l ip new) v).reports = v.reports ∧
      RowsEmpty new (places.foldl (recordOrder l ip new) v) := by
  induction places generalizing v with
  | nil => exact ⟨rfl, rfl, h⟩
  | cons place rest ih =>
    obtain ⟨hplace, hrest⟩ := forall_mem_cons.mp hplaces
    obtain ⟨hstack, hreports, hrows⟩ := @recordOrder_spec l ip _ _ _ h hplace
    obtain ⟨hstack', hreports', hrows'⟩ := ih hrows hrest
    exact ⟨hstack'.trans hstack, hreports'.trans hreports, hrows'⟩

theorem setEdge_noEdges (i j : Nat) : setEdge noEdges i j false = noEdges := by
  funext a b
  unfold setEdge
  split
  · rfl
  · rfl

theorem moveEdges_noEdges (i : Nat) : moveEdges noEdges i = noEdges := by
  have hfold : ∀ js : List Nat, js.foldl (fun edges j =>
      let edges := setEdge edges i j (edges (i + 1) j)
      setEdge edges j i (edges j (i + 1))) noEdges = noEdges := by
    intro js
    induction js with
    | nil => rfl
    | cons j rest ih =>
      rw [foldl_cons]
      have hfirst : setEdge noEdges i j (noEdges (i + 1) j) = noEdges := setEdge_noEdges i j
      rw [hfirst]
      have hsecond : setEdge noEdges j i (noEdges j (i + 1)) = noEdges := setEdge_noEdges j i
      rw [hsecond]
      exact ih
  exact hfold places

theorem foldl_moveEdges_noEdges (is : List Nat) : is.foldl moveEdges noEdges = noEdges := by
  induction is with
  | nil => rfl
  | cons i rest ih => rw [foldl_cons, moveEdges_noEdges, ih]

end Matrix

inductive Turns : List Held → Event → List Held → Prop where
  | again {front back : List Held} {found : Held} (ip : UInt32) :
      Turns (front ++ found :: back) (.acquire found.lock ip)
        (front ++ { found with depth := found.depth + 1 } :: back)
  | push {stack : List Held} {l : Lock} (ip : UInt32) (hnew : l ∉ stack.map (·.lock)) :
      Turns stack (.acquire l ip) (stack ++ [⟨l, 1⟩])
  | stranger {stack : List Held} {l : Lock} (hnew : l ∉ stack.map (·.lock)) :
      Turns stack (.release l) stack
  | nested {front back : List Held} {found : Held} (hdepth : found.depth > 1) :
      Turns (front ++ found :: back) (.release found.lock)
        (front ++ { found with depth := found.depth - 1 } :: back)
  | last {front back : List Held} {found : Held} (hdepth : ¬ found.depth > 1) :
      Turns (front ++ found :: back) (.release found.lock) (front ++ back)

def Event.lock : Event → Lock
  | .acquire l _ => l
  | .release l => l

theorem heldDepth_of_ne {l : Lock} {p : List Event} {event : Event} (h : event.lock ≠ l) :
    heldDepth l (p ++ [event]) = heldDepth l p := by
  cases event with
  | acquire l' ip => exact heldDepth_acquire.trans (if_neg h)
  | release l' => exact heldDepth_release.trans (if_neg h)

section Stack

variable {stack stack' front back : List Held} {found : Held} {l : Lock} {idx : Nat} {p : List Event}
  {event : Event}

theorem findLock_eq_none : findLock stack l = none ↔ l ∉ stack.map (·.lock) := by
  rw [findLock, findIdx?_eq_none_iff, mem_map]
  refine ⟨fun h ⟨entry, hmem, heq⟩ => ?_, fun h entry hmem => ?_⟩
  · exact absurd heq (beq_eq_false_iff_ne.mp (h entry hmem))
  · exact beq_eq_false_iff_ne.mpr fun heq => h ⟨entry, hmem, heq⟩

theorem findLock_eq_some (h : findLock stack l = some idx) : ∃ front found back,
    stack = front ++ found :: back ∧ stack[idx]? = some found ∧ found.lock = l ∧
    (∀ f, stack.modify idx f = front ++ f found :: back) ∧ stack.eraseIdx idx = front ++ back := by
  obtain ⟨hlt, heq, -⟩ := findIdx?_eq_some_iff_getElem.mp h
  refine ⟨stack.take idx, stack[idx], stack.drop (idx + 1), ?_, getElem?_eq_getElem hlt,
    beq_iff_eq.mp heq, fun f => modify_eq_take_cons_drop hlt, eraseIdx_eq_take_drop_succ _ _⟩
  rw [getElem_cons_drop, take_append_drop]

theorem lock_ne (h : ((front ++ found :: back).map (·.lock)).Nodup) {entry : Held}
    (hmem : entry ∈ front ++ back) : found.lock ≠ entry.lock := by
  rw [map_append, map_cons, nodup_middle, ← map_append] at h
  intro heq
  exact (nodup_cons.mp h).1 (heq ▸ mem_map_of_mem hmem)

theorem heldDepth_other (h : ((front ++ found :: back).map (·.lock)).Nodup) {entry : Held}
    (hmem : entry ∈ front ++ back) (hevent : event.lock = found.lock) :
    heldDepth entry.lock (p ++ [event]) = heldDepth entry.lock p :=
  heldDepth_of_ne (hevent.trans_ne (lock_ne h hmem))

theorem heldDepth_stranger (hnew : event.lock ∉ stack.map (·.lock)) {entry : Held} (hmem : entry ∈ stack) :
    heldDepth entry.lock (p ++ [event]) = heldDepth entry.lock p :=
  heldDepth_of_ne fun heq => hnew (heq ▸ mem_map_of_mem hmem)

theorem mem_middle {entry other : Held} :
    entry ∈ front ++ other :: back ↔ entry = other ∨ entry ∈ front ++ back := by
  rw [mem_append, mem_cons, mem_append, or_left_comm]

theorem length_le_card {locks : Finset Lock} (hnodup : (stack.map (·.lock)).Nodup)
    (hlocks : ∀ entry ∈ stack, entry.lock ∈ locks) : stack.length ≤ locks.card := by
  rw [← length_map (·.lock), ← toFinset_card_of_nodup hnodup]
  refine Finset.card_le_card fun l hl => ?_
  obtain ⟨entry, hmem, rfl⟩ := mem_map.mp (mem_toFinset.mp hl)
  exact hlocks entry hmem

theorem Turns.nodup (h : Turns stack event stack') (hnodup : (stack.map (·.lock)).Nodup) :
    (stack'.map (·.lock)).Nodup := by
  cases h with
  | again ip => simpa using hnodup
  | push ip hnew =>
    simp only [map_append, map_cons, map_nil]
    refine nodup_append.mpr ⟨hnodup, nodup_singleton _, fun a ha b hb heq => ?_⟩
    rw [heq, mem_singleton.mp hb] at ha
    exact hnew ha
  | stranger hnew => exact hnodup
  | nested hdepth => simpa using hnodup
  | last hdepth => exact hnodup.sublist (((sublist_cons_self _ _).append_left _).map _)

theorem toNat_pred {n : UInt32} (h : n > 1) : 1 < n.toNat ∧ (n - 1).toNat = n.toNat - 1 :=
  ⟨UInt32.lt_iff_toNat_lt.mp h, UInt32.toNat_sub_of_le _ _ (UInt32.le_of_lt h)⟩

theorem Turns.held (h : Turns stack event stack') (hnodup : (stack.map (·.lock)).Nodup)
    (hheld : ∀ entry ∈ stack, 0 < heldDepth entry.lock p ∧ entry.depth.toNat ≤ heldDepth entry.lock p) :
    ∀ entry ∈ stack', 0 < heldDepth entry.lock (p ++ [event]) ∧
      entry.depth.toNat ≤ heldDepth entry.lock (p ++ [event]) := by
  intro entry hmem
  cases h with
  | again ip =>
    rcases mem_middle.mp hmem with rfl | hother
    · have hle := (hheld _ (mem_append_right _ mem_cons_self)).2
      rw [heldDepth_acquire, if_pos rfl, UInt32.toNat_add]
      exact ⟨Nat.succ_pos _, (Nat.mod_le _ _).trans (Nat.add_le_add_right hle 1)⟩
    · rw [heldDepth_other hnodup hother rfl]
      exact hheld entry (mem_middle.mpr (.inr hother))
  | push ip hnew =>
    rcases mem_append.mp hmem with hold | hown
    · rw [heldDepth_stranger hnew hold]
      exact hheld entry hold
    · cases mem_singleton.mp hown
      rw [heldDepth_acquire, if_pos rfl]
      exact ⟨Nat.succ_pos _, Nat.succ_le_succ (Nat.zero_le _)⟩
  | stranger hnew =>
    rw [heldDepth_stranger hnew hmem]
    exact hheld entry hmem
  | nested hdepth =>
    rcases mem_middle.mp hmem with rfl | hother
    · have hle := (hheld _ (mem_append_right _ mem_cons_self)).2
      have hpred := toNat_pred hdepth
      rw [heldDepth_release, if_pos rfl]
      dsimp only
      omega
    · rw [heldDepth_other hnodup hother rfl]
      exact hheld entry (mem_middle.mpr (.inr hother))
  | last hdepth =>
    rw [heldDepth_other hnodup hmem rfl]
    exact hheld entry (mem_middle.mpr (.inr hmem))

end Stack

/-- The stack holds held locks, each once; no edge and no report is there. -/
structure Idle (p : List Event) (v : Validator) : Prop where
  nodup : (v.stack.map (·.lock)).Nodup
  held : ∀ entry ∈ v.stack, 0 < heldDepth entry.lock p ∧ entry.depth.toNat ≤ heldDepth entry.lock p
  edges : v.edges = noEdges
  reports : v.reports = []

section Calls

variable {p : List Event} {v : Validator} {l : Lock} {ip : UInt32}

def recorded (l : Lock) (ip : UInt32) (v : Validator) : Validator :=
  (List.zip (List.range v.stack.length) v.stack).foldl (recordOrder l ip v.stack.length) v

theorem Idle.recorded (h : Idle p v) : (recorded l ip v).stack = v.stack ∧
    (recorded l ip v).reports = v.reports ∧ RowsEmpty v.stack.length (recorded l ip v) := by
  have hrows : RowsEmpty v.stack.length v := by
    intro i j _
    rw [h.edges]
    rfl
  refine recordOrders_spec _ hrows fun place hmem => ?_
  exact mem_range.mp (of_mem_zip hmem).1

theorem Idle.turns {event : Event} {v' : Validator} (h : Idle p v) (hturns : Turns v.stack event v'.stack)
    (hedges : v'.edges = noEdges) (hreports : v'.reports = []) : Idle (p ++ [event]) v' :=
  { nodup := hturns.nodup h.nodup
    held := hturns.held h.nodup h.held
    edges := hedges
    reports := hreports }

theorem Idle.acquire (h : Idle p v) (hroom : ∃ locks : Finset Lock, locks.card ≤ 16 ∧
    ∀ l', 0 < heldDepth l' (p ++ [.acquire l ip]) → l' ∈ locks) :
    ∃ v', lockdepAcquire l ip v = some v' ∧ Idle (p ++ [.acquire l ip]) v' := by
  unfold lockdepAcquire
  cases hfind : findLock v.stack l with
  | some idx =>
    obtain ⟨front, found, back, hstack, -, rfl, hmodify, -⟩ := findLock_eq_some hfind
    have hturns : Turns v.stack (.acquire found.lock ip)
        (v.stack.modify idx fun held => { held with depth := held.depth + 1 }) := by
      rw [hmodify, hstack]
      exact Turns.again ip
    exact ⟨_, rfl, h.turns hturns h.edges h.reports⟩
  | none =>
    obtain ⟨hstack, hreports, hrows⟩ := @Idle.recorded _ _ l ip h
    obtain ⟨v', hv'⟩ : ∃ v', v' = push l (Lockdep.recorded l ip v) := ⟨_, rfl⟩
    have hstack' : v'.stack = v.stack ++ [⟨l, 1⟩] := by
      rw [hv', push, hstack]
    have hturns : Turns v.stack (.acquire l ip) v'.stack := by
      rw [hstack']
      exact Turns.push ip (findLock_eq_none.mp hfind)
    have hidle : Idle (p ++ [.acquire l ip]) v' := by
      refine h.turns hturns ?_ (by rw [hv']; exact hreports.trans h.reports)
      funext i j
      rw [hv', push]
      dsimp only
      rw [hstack]
      by_cases hij : i = v.stack.length ∨ j = v.stack.length
      · rw [if_pos hij]
        rfl
      · rw [if_neg hij]
        exact hrows i j (.inr fun hj => hij (.inr hj))
    obtain ⟨locks, hcard, hlocks⟩ := hroom
    have hlength := length_le_card hidle.nodup fun entry hmem => hlocks _ (hidle.held entry hmem).1
    rw [hstack', length_append] at hlength
    have hnew : v.stack.length < lockdepMaxLocks := Nat.lt_of_succ_le (hlength.trans hcard)
    rw [if_pos hnew]
    exact ⟨v', congrArg some hv'.symm, hidle⟩

theorem Idle.release (h : Idle p v) : Idle (p ++ [.release l]) (lockdepRelease l v) := by
  unfold lockdepRelease
  cases hfind : findLock v.stack l with
  | none =>
    exact h.turns (Turns.stranger (findLock_eq_none.mp hfind)) h.edges h.reports
  | some idx =>
    obtain ⟨front, found, back, hstack, hget, rfl, hmodify, herase⟩ := findLock_eq_some hfind
    dsimp only
    rw [hget]
    dsimp only
    split
    · rename_i hnested
      have hturns : Turns v.stack (.release found.lock)
          (v.stack.modify idx fun held => { held with depth := held.depth - 1 }) := by
        rw [hmodify, hstack]
        exact Turns.nested hnested
      exact h.turns hturns h.edges h.reports
    · rename_i hlast
      have hturns : Turns v.stack (.release found.lock) (v.stack.eraseIdx idx) := by
        rw [herase, hstack]
        exact Turns.last hlast
      refine h.turns hturns ?_ h.reports
      dsimp only
      rw [h.edges, foldl_moveEdges_noEdges]
      funext i j
      split
      · rfl
      · rfl

end Calls

section Runs

variable {events : List Event}

theorem idle_init : Idle [] lockdepInit :=
  { nodup := nodup_nil
    held := fun entry hmem => by cases hmem
    edges := rfl
    reports := rfl }

theorem run_append (p : List Event) (event : Event) : run (p ++ [event]) = (run p).bind (step · event) := by
  unfold run
  rw [foldlM_append]
  cases p.foldlM step lockdepInit with
  | none => rfl
  | some v => exact bind_pure (step v event)

theorem run_idle (h : AtMost16Held events) : ∃ v, run events = some v ∧ Idle events v := by
  induction events using List.reverseRecOn with
  | nil => exact ⟨lockdepInit, rfl, idle_init⟩
  | append_singleton p event ih =>
    obtain ⟨v, hrun, hidle⟩ := ih fun q hq => h q (hq.trans (List.prefix_append _ _))
    rw [run_append, hrun, Option.bind_some]
    cases event with
    | acquire l ip => exact hidle.acquire (h _ (prefix_refl _))
    | release l => exact ⟨_, rfl, hidle.release⟩

theorem AtMost16Held.before {p : List Event} (h : AtMost16Held events) (hp : p <+: events) :
    AtMost16Held p := fun q hq => h q (hq.trans hp)

/-- The inversions of a history are reported only if it has none. -/
theorem detects_iff_no_inversion (h : AtMost16Held events) :
    Detects events ↔ ¬ ∃ p, p <+: events ∧ Inverts p := by
  refine ⟨?_, fun hnone p hp hinverts => absurd ⟨p, hp, hinverts⟩ hnone⟩
  rintro hdetects ⟨p, hp, hinverts⟩
  obtain ⟨v, hrun, hreports⟩ := hdetects p hp hinverts
  obtain ⟨v', hrun', hidle⟩ := run_idle (h.before hp)
  cases hrun.symm.trans hrun'
  exact hreports hidle.reports

theorem acquire_mem {l : Lock} {p : List Event} (h : 0 < heldDepth l p) : ∃ ip, Event.acquire l ip ∈ p := by
  induction p using List.reverseRecOn with
  | nil => cases h
  | append_singleton p event ih =>
    have hold : 0 < heldDepth l p → ∃ ip, Event.acquire l ip ∈ p ++ [event] := fun h => by
      obtain ⟨ip, hip⟩ := ih h
      exact ⟨ip, mem_append_left _ hip⟩
    cases event with
    | acquire l' ip =>
      rw [heldDepth_acquire] at h
      split at h
      · rename_i heq
        exact ⟨ip, mem_append_right _ (by rw [heq]; exact mem_singleton.mpr rfl)⟩
      · exact hold h
    | release l' =>
      rw [heldDepth_release] at h
      split at h
      · exact hold (by omega)
      · exact hold h

theorem heldDepth_le_length (l : Lock) (p : List Event) : heldDepth l p ≤ p.length := by
  induction p using List.reverseRecOn with
  | nil => exact Nat.le_refl 0
  | append_singleton p event ih =>
    rw [length_append, length_singleton]
    cases event with
    | acquire l' ip =>
      rw [heldDepth_acquire]
      split <;> omega
    | release l' =>
      rw [heldDepth_release]
      split <;> omega

def bothOrders : List Event :=
  [.acquire 16 0, .acquire 32 0, .release 32, .release 16, .acquire 32 0, .acquire 16 0]

theorem bothOrders_few : AtMost16Held bothOrders := by
  intro p hp
  refine ⟨{16, 32}, by decide, fun l hl => ?_⟩
  obtain ⟨ip, hip⟩ := acquire_mem hl
  have hmem := hp.subset hip
  simp only [bothOrders, mem_cons, Event.acquire.injEq, reduceCtorEq, false_or, not_mem_nil, or_false] at hmem
  rw [Finset.mem_insert, Finset.mem_singleton]
  rcases hmem with h | h | h | h
  · exact .inl h.1
  · exact .inr h.1
  · exact .inr h.1
  · exact .inl h.1

theorem bothOrders_inverts : Inverts bothOrders := by
  refine ⟨16, 32, by decide, ⟨bothOrders.take 5, 0, rfl, by decide⟩, bothOrders.take 2,
    take_prefix _ _, bothOrders.take 1, 0, rfl, by decide⟩

theorem detects_iff_no_inversion_bothOrders : ¬ Detects bothOrders := fun h =>
  (detects_iff_no_inversion bothOrders_few).mp h ⟨_, prefix_refl _, bothOrders_inverts⟩

theorem inversion_not_reported : ¬ ∀ events, AtMost16Held events → Detects events := by
  intro h
  obtain ⟨v, hrun, hreports⟩ := h bothOrders bothOrders_few _ (prefix_refl _) bothOrders_inverts
  obtain ⟨v', hrun', hidle⟩ := run_idle bothOrders_few
  cases hrun.symm.trans hrun'
  exact hreports hidle.reports

end Runs

end JexOs.Lockdep
