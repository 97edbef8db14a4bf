import JexOs.Lib.Shift
import JexOs.Proof.Lockdep
import JexOs.Proof.LockdepSearch
import Mathlib.Algebra.Group.Nat.Defs

/-!
# The stack of held locks

The array of locks is a list of the held ones. While there is an entry for a new lock, no index leaves its array.
-/

namespace JexOs.Lockdep

open List Option

/-- At some time the first lock was held and the second one was not, and the first has been held since. -/
def HeldBefore (p : List Event) (first second : Lock) : Prop :=
  ∃ q, q <+: p ∧ heldDepth second q = 0 ∧ ∀ r, q <+: r → r <+: p → 0 < heldDepth first r

/-- The stack lists the held locks in the order of their first acquisitions that are unreleased. -/
structure Lists (p : List Event) (stack : List Held) : Prop where
  mem : ∀ l, l ∈ stack.map (·.lock) ↔ 0 < heldDepth l p
  order : (stack.map (·.lock)).Pairwise (HeldBefore p)
  depth : ∀ entry ∈ stack, entry.depth.toNat = heldDepth entry.lock p

/-- No lock is held `2 ^ 32` times at once. -/
def Countable (p : List Event) : Prop := ∀ q, q <+: p → ∀ l, heldDepth l q < 2 ^ 32

section Lists

variable {p : List Event} {stack stack' : List Held} {event : Event} {a b : Lock}

theorem HeldBefore.ne (h : HeldBefore p a b) : a ≠ b := by
  obtain ⟨q, hq, hnone, hheld⟩ := h
  rintro rfl
  exact absurd hnone (Nat.ne_of_gt (hheld q (prefix_refl q) hq))

theorem prefix_snoc {r : List Event} (h : r <+: p ++ [event]) : r <+: p ∨ r = p ++ [event] := by
  rcases prefix_concat_iff.mp h with h | h
  · exact .inr h
  · exact .inl h

theorem HeldBefore.snoc (h : HeldBefore p a b) (hheld : 0 < heldDepth a (p ++ [event])) :
    HeldBefore (p ++ [event]) a b := by
  obtain ⟨q, hq, hnone, hsince⟩ := h
  refine ⟨q, hq.trans (List.prefix_append _ _), hnone, fun r hr hrp => ?_⟩
  rcases prefix_snoc hrp with hrp | rfl
  · exact hsince r hr hrp
  · exact hheld

theorem heldBefore_new (hp : 0 < heldDepth a p) (hheld : 0 < heldDepth a (p ++ [event]))
    (hnone : heldDepth b p = 0) : HeldBefore (p ++ [event]) a b := by
  refine ⟨p, List.prefix_append _ _, hnone, fun r hr hrp => ?_⟩
  rcases prefix_snoc hrp with hrp | rfl
  · rwa [IsPrefix.eq_of_length_le hrp hr.length_le]
  · exact hheld

theorem Lists.nodup (h : Lists p stack) : (stack.map (·.lock)).Nodup := h.order.imp HeldBefore.ne

theorem Lists.order_snoc (h : Lists p stack) {locks : List Lock} (hsub : locks.Sublist (stack.map (·.lock)))
    (hheld : ∀ l ∈ locks, 0 < heldDepth l (p ++ [event])) : locks.Pairwise (HeldBefore (p ++ [event])) :=
  (h.order.sublist hsub).imp_of_mem fun ha _ hab => hab.snoc (hheld _ ha)

theorem Lists.turns (h : Lists p stack) (hturns : Turns stack event stack')
    (hcount : Countable (p ++ [event])) : Lists (p ++ [event]) stack' := by
  have hnodup := h.nodup
  -- of every lock but that of the event nothing changes
  have hmem : (event.lock ∈ stack'.map (·.lock) ↔ 0 < heldDepth event.lock (p ++ [event])) →
      (∀ l, l ≠ event.lock → (l ∈ stack'.map (·.lock) ↔ l ∈ stack.map (·.lock))) →
      ∀ l, l ∈ stack'.map (·.lock) ↔ 0 < heldDepth l (p ++ [event]) := by
    intro hown hothers l
    by_cases hl : l = event.lock
    · rw [hl]
      exact hown
    · rw [heldDepth_of_ne (Ne.symm hl), hothers l hl, h.mem]
  cases hturns with
  | @again front back found ip =>
    have hlocks : (front ++ { found with depth := found.depth + 1 } :: back).map (·.lock) =
        (front ++ found :: back).map (·.lock) := by simp
    have hdepth := h.depth found (mem_middle.mpr (.inl rfl))
    have hnew : heldDepth found.lock (p ++ [.acquire found.lock ip]) = heldDepth found.lock p + 1 :=
      heldDepth_acquire.trans (if_pos rfl)
    have hmem' := hmem
      (iff_of_true (by rw [hlocks]; exact mem_map_of_mem (mem_middle.mpr (.inl rfl)))
        (hnew ▸ Nat.succ_pos _))
      fun l _ => by rw [hlocks]
    refine
      { mem := hmem'
        order := h.order_snoc (by rw [hlocks]) fun l hl => (hmem' l).mp hl
        depth := fun entry hentry => ?_ }
    rcases mem_middle.mp hentry with rfl | hother
    · have hlt := hcount _ (prefix_refl _) found.lock
      rw [hnew] at hlt ⊢
      rw [UInt32.toNat_add, hdepth]
      exact Nat.mod_eq_of_lt hlt
    · rw [heldDepth_other hnodup hother rfl]
      exact h.depth entry (mem_middle.mpr (.inr hother))
  | @push _ l ip hnew =>
    have hnone : heldDepth l p = 0 := Nat.eq_zero_of_not_pos fun hpos => hnew ((h.mem l).mpr hpos)
    have hone : heldDepth l (p ++ [.acquire l ip]) = 1 :=
      heldDepth_acquire.trans ((if_pos rfl).trans (congrArg (· + 1) hnone))
    have hlocks : (stack ++ [(⟨l, 1⟩ : Held)]).map (·.lock) = stack.map (·.lock) ++ [l] := by simp
    have hmem' := hmem
      (iff_of_true (mem_map_of_mem (mem_append_right _ mem_cons_self)) (hone ▸ Nat.one_pos))
      fun l' hl' => by rw [hlocks, mem_append, mem_singleton, or_iff_left (show ¬ l' = l from hl')]
    have hold : ∀ l' ∈ stack.map (·.lock), 0 < heldDepth l' (p ++ [.acquire l ip]) := fun l' hl' =>
      (hmem' l').mp (by rw [hlocks]; exact mem_append_left _ hl')
    refine
      { mem := hmem'
        order := ?_
        depth := fun entry hentry => ?_ }
    · rw [hlocks, pairwise_append]
      refine ⟨h.order_snoc (Sublist.refl _) hold, pairwise_singleton _ _, fun a ha b hb => ?_⟩
      rw [mem_singleton.mp hb]
      exact heldBefore_new ((h.mem a).mp ha) (hold a ha) hnone
    · rcases mem_append.mp hentry with hentry | hentry
      · rw [heldDepth_stranger hnew hentry]
        exact h.depth entry hentry
      · cases mem_singleton.mp hentry
        exact hone.symm
  | @stranger _ l hnew =>
    have hnone : heldDepth l p = 0 := Nat.eq_zero_of_not_pos fun hpos => hnew ((h.mem l).mpr hpos)
    have hstill : heldDepth l (p ++ [.release l]) = 0 :=
      heldDepth_release.trans ((if_pos rfl).trans (congrArg (· - 1) hnone))
    have hmem' := hmem (iff_of_false hnew (hstill ▸ Nat.lt_irrefl 0)) fun _ _ => Iff.rfl
    exact
      { mem := hmem'
        order := h.order_snoc (Sublist.refl _) fun l hl => (hmem' l).mp hl
        depth := fun entry hentry => by
          rw [heldDepth_stranger hnew hentry]
          exact h.depth entry hentry }
  | @nested front back found hdepth =>
    have hlocks : (front ++ { found with depth := found.depth - 1 } :: back).map (·.lock) =
        (front ++ found :: back).map (·.lock) := by simp
    have hpred := toNat_pred hdepth
    have hold := h.depth found (mem_middle.mpr (.inl rfl))
    have hnew : heldDepth found.lock (p ++ [.release found.lock]) = heldDepth found.lock p - 1 :=
      heldDepth_release.trans (if_pos rfl)
    have hmem' := hmem
      (iff_of_true (by rw [hlocks]; exact mem_map_of_mem (mem_middle.mpr (.inl rfl)))
        (by rw [show Event.lock _ = found.lock from rfl, hnew]; omega))
      fun l _ => by rw [hlocks]
    refine
      { mem := hmem'
        order := h.order_snoc (by rw [hlocks]) fun l hl => (hmem' l).mp hl
        depth := fun entry hentry => ?_ }
    rcases mem_middle.mp hentry with rfl | hother
    · rw [hnew, ← hold]
      exact hpred.2
    · rw [heldDepth_other hnodup hother rfl]
      exact h.depth entry (mem_middle.mpr (.inr hother))
  | @last front back found hdepth =>
    have hold := h.depth found (mem_middle.mpr (.inl rfl))
    have hle : ¬ (1 : UInt32).toNat < found.depth.toNat := fun hlt => hdepth (UInt32.lt_iff_toNat_lt.mpr hlt)
    have hone : (1 : UInt32).toNat = 1 := rfl
    have hgone : heldDepth found.lock (p ++ [.release found.lock]) = 0 :=
      heldDepth_release.trans ((if_pos rfl).trans (by omega))
    have hfree : found.lock ∉ (front ++ back).map (·.lock) := by
      intro hl
      obtain ⟨entry, hentry, heq⟩ := mem_map.mp hl
      exact lock_ne hnodup hentry heq.symm
    have hmem' := hmem (iff_of_false hfree (hgone ▸ Nat.lt_irrefl 0)) fun l hl => by
      simp only [map_append, map_cons, mem_append, mem_cons]
      rw [or_left_comm, or_iff_right (show ¬ l = found.lock from hl)]
    exact
      { mem := hmem'
        order := h.order_snoc (((sublist_cons_self _ _).append_left _).map _) fun l hl => (hmem' l).mp hl
        depth := fun entry hentry => by
          rw [heldDepth_other hnodup hentry rfl]
          exact h.depth entry (mem_middle.mpr (.inr hentry)) }

end Lists

namespace Tables

def stack (t : Tables) : List Held := Shift.listed t.lockStack t.lockStackDepth

/-- The lock is not held, and there is no entry for it. -/
def Overfull (t : Tables) : Event → Prop
  | .acquire l _ => l ∉ t.stack.map (·.lock) ∧ lockdepMaxLocks ≤ t.lockStackDepth
  | .release _ => False

section Steps

variable {t : Tables} {l : Lock} {ip : UInt32} {new i idx : Nat} {held : Held} {event : Event}

theorem foldlM_keeps {σ β : Type} {f : σ → β → Option σ} {P : σ → Prop} {xs : List β} {s : σ} (hs : P s)
    (hf : ∀ x ∈ xs, ∀ s, P s → ∃ s', f s x = some s' ∧ P s') : ∃ s', xs.foldlM f s = some s' ∧ P s' := by
  induction xs generalizing s with
  | nil => exact ⟨s, rfl, hs⟩
  | cons x xs ih =>
    obtain ⟨s', hstep, hs'⟩ := hf x mem_cons_self s hs
    rw [foldlM_cons, hstep]
    exact ih hs' fun x' hx' => hf x' (mem_cons_of_mem _ hx')

theorem findLockFrom_eq {stack : Nat → Held} {n : Nat} (h : i + n ≤ lockdepMaxLocks) :
    findLockFrom stack l n i =
      some (((Shift.listed (fun k => stack (i + k)) n).findIdx? (·.lock == l)).map (i + ·)) := by
  induction n generalizing i with
  | zero => rfl
  | succ n ih =>
    have hlist : Shift.listed (fun k => stack (i + k)) (n + 1) =
        stack i :: Shift.listed (fun k => stack (i + 1 + k)) n := by
      rw [Nat.add_comm n 1, Shift.listed_add]
      simp only [Nat.add_assoc]
      rfl
    rw [findLockFrom, slot_of_lt (by omega), hlist, findIdx?_cons, bind_eq_bind, bind_some]
    by_cases heq : (stack i).lock = l
    · rw [if_pos heq, if_pos (beq_iff_eq.mpr heq)]
      rfl
    · rw [if_neg heq, if_neg fun h => heq (beq_iff_eq.mp h), ih (by omega), Option.map_map]
      refine congrArg some (congrArg (Option.map · _) ?_)
      funext k
      exact Nat.add_right_comm i 1 k

theorem findLock_eq (h : t.lockStackDepth ≤ lockdepMaxLocks) :
    findLock t l = some (Lockdep.findLock t.stack l) := by
  rw [findLock, findLockFrom_eq (by omega)]
  simp only [Nat.zero_add, Option.map_id']
  rfl

theorem findLock_lt (h : Lockdep.findLock t.stack l = some idx) : idx < t.lockStackDepth := by
  obtain ⟨hlt, -⟩ := findIdx?_eq_some_iff_getElem.mp h
  rwa [stack, Shift.length_listed] at hlt

theorem setDepth_eq (h : idx < lockdepMaxLocks) (change : UInt32 → UInt32) :
    ∃ t', setDepth t idx change = some t' ∧
    t'.lockStackDepth = t.lockStackDepth ∧
    t'.stack = t.stack.modify idx fun held => { held with depth := change held.depth } := by
  simp only [setDepth, slot_of_lt h, setSlot_of_lt h, bind_eq_bind, bind_some]
  exact ⟨_, rfl, rfl, Shift.listed_update fun held : Held => { held with depth := change held.depth }⟩

theorem recordOrder_eq (hi : i < new) (hnew : new < lockdepMaxLocks) :
    ∃ t', recordOrder l ip new t i = some t' ∧ t'.lockStack = t.lockStack := by
  have hlt := hi.trans hnew
  obtain ⟨found, hfound, -⟩ := @checkDeadlock_spec i new (setEdge t.edges i new true) hnew
  simp only [recordOrder, edgeAt_of_lt hlt hnew, setEdgeAt_of_lt hlt hnew, slot_of_lt hlt, hfound,
    bind_eq_bind, bind_some]
  split
  · exact ⟨t, rfl, rfl⟩
  · split
    · exact ⟨_, rfl, rfl⟩
    · exact ⟨_, rfl, rfl⟩

theorem recordOrders_eq (places : List Nat) (l : Lock) (ip : UInt32) (hnew : new < lockdepMaxLocks)
    (hplaces : ∀ i ∈ places, i < new) :
    ∃ t', places.foldlM (recordOrder l ip new) t = some t' ∧ t'.lockStack = t.lockStack := by
  refine foldlM_keeps (P := fun s : Tables => s.lockStack = t.lockStack) rfl fun i hi s hs => ?_
  obtain ⟨s', hrecord, hlocks⟩ := @recordOrder_eq s l ip _ _ (hplaces i hi) hnew
  exact ⟨s', hrecord, hlocks.trans hs⟩

theorem clearEdges_eq (place : Nat) (h : place < lockdepMaxLocks) (edges : Edges) :
    ∃ edges', clearEdges place edges = some edges' := by
  refine (foldlM_keeps (P := fun _ => True) trivial fun i hi edges _ => ?_).imp fun _ h => h.1
  have hlt := mem_range.mp hi
  simp only [setEdgeAt_of_lt h hlt, setEdgeAt_of_lt hlt h, bind_eq_bind, bind_some]
  exact ⟨_, rfl, trivial⟩

theorem moveEdges_eq (h : i + 1 < lockdepMaxLocks)
    (edges : Edges) : ∃ edges', moveEdges i edges = some edges' := by
  refine (foldlM_keeps (P := fun _ => True) trivial fun j hj edges _ => ?_).imp fun _ h => h.1
  have hlt := mem_range.mp hj
  have hi := Nat.lt_of_succ_lt h
  simp only [edgeAt_of_lt h hlt, edgeAt_of_lt hlt h, setEdgeAt_of_lt hi hlt, setEdgeAt_of_lt hlt hi,
    bind_eq_bind, bind_some]
  exact ⟨_, rfl, trivial⟩

theorem shiftDown_eq {n : Nat} (h : i + n < lockdepMaxLocks) : ∃ edges', shiftDown n i t =
    some { t with
      lockStack := Shift.close 1 n i t.lockStack
      edges := edges' } := by
  induction n generalizing i t with
  | zero => exact ⟨t.edges, rfl⟩
  | succ n ih =>
    obtain ⟨edges', hmove⟩ := moveEdges_eq (i := i) (by omega) t.edges
    rw [shiftDown, slot_of_lt (by omega), bind_eq_bind, bind_some, setSlot_of_lt (by omega),
      bind_eq_bind, bind_some, hmove, bind_eq_bind, bind_some]
    exact ih (by omega)

theorem step_turns (h : t.lockStackDepth ≤ lockdepMaxLocks) (hroom : ¬ Overfull t event) :
    ∃ t', step t event = some t' ∧ t'.lockStackDepth ≤ lockdepMaxLocks ∧ Turns t.stack event t'.stack := by
  cases event with
  | acquire l ip =>
    simp only [step, lockdepAcquire, findLock_eq h, bind_eq_bind, bind_some]
    cases hfind : Lockdep.findLock t.stack l with
    | some idx =>
      obtain ⟨front, found, back, hstack, -, rfl, hmodify, -⟩ := findLock_eq_some hfind
      obtain ⟨t', hset, hdepth, hstack'⟩ := setDepth_eq ((findLock_lt hfind).trans_le h) (t := t) (· + 1)
      refine ⟨t', hset, hdepth ▸ h, ?_⟩
      rw [hstack', hmodify, hstack]
      exact Turns.again ip
    | none =>
      have hfree := findLock_eq_none.mp hfind
      have hnew : t.lockStackDepth < lockdepMaxLocks := Nat.lt_of_not_le fun hle => hroom ⟨hfree, hle⟩
      obtain ⟨t₁, hrecord, hlocks⟩ := recordOrders_eq (List.range t.lockStackDepth) l ip hnew fun i hi =>
        mem_range.mp hi
      obtain ⟨edges', hclear⟩ := clearEdges_eq _ hnew t₁.edges
      dsimp only
      rw [hrecord, bind_some, if_pos hnew, hclear, bind_some, setSlot_of_lt hnew, bind_some]
      refine ⟨_, rfl, hnew, ?_⟩
      have hpushed : Shift.listed (Function.update t₁.lockStack t.lockStackDepth ⟨l, 1⟩)
          (t.lockStackDepth + 1) = t.stack ++ [⟨l, 1⟩] := by
        rw [hlocks, Shift.listed_update_end]
        rfl
      exact (congrArg (Turns t.stack _) hpushed).mpr (Turns.push ip hfree)
  | release l =>
    simp only [step, lockdepRelease, findLock_eq h, bind_eq_bind, bind_some]
    cases hfind : Lockdep.findLock t.stack l with
    | none => exact ⟨t, rfl, h, Turns.stranger (findLock_eq_none.mp hfind)⟩
    | some idx =>
      obtain ⟨front, found, back, hstack, hget, rfl, hmodify, herase⟩ := findLock_eq_some hfind
      have hidx := findLock_lt hfind
      have hlt := hidx.trans_le h
      have hfound : t.lockStack idx = found := by
        rw [stack, Shift.listed_getElem?, if_pos hidx] at hget
        exact some.inj hget
      dsimp only
      rw [slot_of_lt hlt, bind_some, hfound]
      split
      · rename_i hnested
        obtain ⟨t', hset, hdepth, hstack'⟩ := setDepth_eq hlt (t := t) (· - 1)
        refine ⟨t', hset, hdepth ▸ h, ?_⟩
        rw [hstack', hmodify, hstack]
        exact Turns.nested hnested
      · rename_i hlast
        obtain ⟨edges₁, hshift⟩ :=
          shiftDown_eq (t := t) (i := idx) (n := t.lockStackDepth - 1 - idx) (by omega)
        obtain ⟨edges₂, hclear⟩ := clearEdges_eq (t.lockStackDepth - 1) (by omega) edges₁
        rw [hshift, bind_some, hclear, bind_some]
        refine ⟨_, rfl, by dsimp only; omega, ?_⟩
        have herased : Shift.listed (Shift.close 1 (t.lockStackDepth - 1 - idx) idx t.lockStack)
            (t.lockStackDepth - 1) = front ++ back := by
          rw [← herase, Shift.listed_close_one (by omega) (by omega), Nat.sub_add_cancel (by omega)]
          rfl
        refine (congrArg (Turns t.stack _) herased).mpr ?_
        rw [hstack]
        exact Turns.last hlast

theorem step_overfull (h : t.lockStackDepth ≤ lockdepMaxLocks) (hfull : Overfull t event) :
    step t event = none := by
  cases event with
  | release l => cases hfull
  | acquire l ip =>
    have hdepth : t.lockStackDepth = lockdepMaxLocks := h.antisymm hfull.2
    simp only [step, lockdepAcquire, findLock_eq h, findLock_eq_none.mpr hfull.1, hdepth,
      bind_eq_bind, bind_some]
    -- the order of the first lock would be recorded in column 16
    rfl

end Steps

section Runs

variable {events p : List Event} {event : Event} {t : Tables}

theorem run_append (p : List Event) (event : Event) : run (p ++ [event]) = (run p).bind (step · event) := by
  unfold run
  rw [foldlM_append]
  cases p.foldlM step lockdepInit with
  | none => rfl
  | some t => exact bind_pure (step t event)

theorem run_of_prefix {q : List Event} (h : run (p ++ q) = some t) : ∃ t', run p = some t' := by
  rw [run, foldlM_append] at h
  exact (bind_eq_some_iff.mp h).imp fun _ h => h.1

theorem run_depth (h : run p = some t) : t.lockStackDepth ≤ lockdepMaxLocks := by
  induction p using List.reverseRecOn generalizing t with
  | nil =>
    cases h
    exact Nat.zero_le _
  | append_singleton p event ih =>
    rw [run_append] at h
    obtain ⟨t₀, hrun, hstep⟩ := bind_eq_some_iff.mp h
    have hdepth := ih hrun
    by_cases hfull : Overfull t₀ event
    · rw [step_overfull hdepth hfull] at hstep
      cases hstep
    · obtain ⟨t₁, hstep', hdepth', -⟩ := step_turns hdepth hfull
      cases hstep.symm.trans hstep'
      exact hdepth'

/-- No lock is taken for the first time while all entries are used. -/
def Fits (events : List Event) : Prop :=
  ∀ p event t, p ++ [event] <+: events → run p = some t → ¬ Overfull t event

/-- Every index is below the bound of its array just if there is an entry for every lock that is taken. -/
theorem run_iff_fits : (∃ t, run events = some t) ↔ Fits events := by
  constructor
  · rintro ⟨t, hrun⟩ p event t₀ ⟨q, rfl⟩ hrun₀ hfull
    obtain ⟨t₁, hrun₁⟩ := run_of_prefix hrun
    rw [run_append, hrun₀, bind_some, step_overfull (run_depth hrun₀) hfull] at hrun₁
    cases hrun₁
  · intro hfits
    induction events using List.reverseRecOn with
    | nil => exact ⟨lockdepInit, rfl⟩
    | append_singleton p event ih =>
      obtain ⟨t, hrun⟩ := ih fun q e t hq => hfits q e t (hq.trans (List.prefix_append _ _))
      obtain ⟨t', hstep, -⟩ := step_turns (run_depth hrun) (hfits p event t (prefix_refl _) hrun)
      rw [run_append, hrun]
      exact ⟨t', hstep⟩

theorem run_locks {locks : List Lock} {ip : UInt32} (hnodup : locks.Nodup)
    (hle : locks.length ≤ lockdepMaxLocks) :
    ∃ t, run (locks.map (Event.acquire · ip)) = some t ∧ t.stack.map (·.lock) = locks := by
  induction locks using List.reverseRecOn with
  | nil => exact ⟨lockdepInit, rfl, rfl⟩
  | append_singleton locks l ih =>
    rw [length_append] at hle
    obtain ⟨t, hrun, hlocks⟩ := ih (hnodup.sublist (sublist_append_left _ _)) (by omega)
    have hfree : l ∉ t.stack.map (·.lock) := by
      rw [hlocks]
      exact fun hmem => (nodup_append.mp hnodup).2.2 l hmem l mem_cons_self rfl
    have hlength : t.lockStackDepth = locks.length := by
      rw [← hlocks, length_map, stack, Shift.length_listed]
    have hroom : ¬ Overfull t (.acquire l ip) := fun hfull => by
      have := hfull.2
      rw [length_singleton] at hle
      omega
    obtain ⟨t', hstep, -, hturns⟩ := step_turns (run_depth hrun) hroom
    rw [map_append, map_singleton, run_append, hrun]
    refine ⟨t', hstep, ?_⟩
    rw [← hlocks]
    generalize t'.stack = stack' at hturns
    generalize t.stack = stack at hturns hfree
    cases hturns with
    | again => exact absurd (mem_map_of_mem (mem_middle.mpr (.inl rfl))) hfree
    | push => simp

def lockAt (i : Nat) : Lock := UInt32.ofNat (16 * (i + 1))

def seventeenLocks : List Event := (List.range 17).map fun i => .acquire (lockAt i) 0

theorem seventeenLocks_leave : ¬ ∃ t, run seventeenLocks = some t := by
  rintro ⟨t, hrun⟩
  obtain ⟨t₀, hrun₀, hlocks⟩ := @run_locks ((List.range 16).map lockAt) 0 (by decide) (by decide)
  have hlength : t₀.lockStackDepth = 16 := by
    have hlength := congrArg List.length hlocks
    rw [length_map, stack, Shift.length_listed] at hlength
    exact hlength
  have hfull : Overfull t₀ (.acquire (lockAt 16) 0) := ⟨by rw [hlocks]; decide, hlength.symm.le⟩
  have hsplit : seventeenLocks = ((List.range 16).map lockAt).map (Event.acquire · 0) ++
    [.acquire (lockAt 16) 0] := rfl
  rw [hsplit, run_append, hrun₀, bind_some, step_overfull (run_depth hrun₀) hfull] at hrun
  cases hrun

theorem lists_init : Lists [] lockdepInit.stack :=
  { mem := fun _ => iff_of_false not_mem_nil (lt_irrefl 0)
    order := List.Pairwise.nil
    depth := nofun }

theorem not_overfull (h : Lists p t.stack) (hfew : AtMost16Held (p ++ [event])) : ¬ Overfull t event := by
  cases event with
  | release l => exact not_false
  | acquire l ip =>
    rintro ⟨hfree, hfull⟩
    obtain ⟨locks, hcard, hlocks⟩ := hfew _ (prefix_refl _)
    have hnodup : ((t.stack ++ [(⟨l, 1⟩ : Held)]).map (·.lock)).Nodup := (Turns.push ip hfree).nodup h.nodup
    have hle : (t.stack ++ [(⟨l, 1⟩ : Held)]).length ≤ locks.card := by
      refine length_le_card hnodup fun entry hentry => hlocks _ ?_
      rw [heldDepth_acquire]
      rcases mem_append.mp hentry with hentry | hentry
      · have hheld := (h.mem _).mp (mem_map_of_mem hentry)
        split
        · exact Nat.succ_pos _
        · exact hheld
      · rw [if_pos (by rw [mem_singleton.mp hentry])]
        exact Nat.succ_pos _
    rw [length_append, length_singleton, stack, Shift.length_listed] at hle
    have hmax : lockdepMaxLocks = 16 := rfl
    omega

/-- The stack lists the held locks, unless a counter overflows. -/
theorem run_lists (hfew : AtMost16Held events) (hcount : Countable events) :
    ∃ t, run events = some t ∧ Lists events t.stack := by
  induction events using List.reverseRecOn with
  | nil => exact ⟨lockdepInit, rfl, lists_init⟩
  | append_singleton p event ih =>
    obtain ⟨t, hrun, hlists⟩ := ih (hfew.before (List.prefix_append _ _)) fun q hq =>
      hcount q (hq.trans (List.prefix_append _ _))
    obtain ⟨t', hstep, -, hturns⟩ := step_turns (run_depth hrun) (not_overfull hlists hfew)
    rw [run_append, hrun]
    exact ⟨t', hstep, hlists.turns hturns hcount⟩

theorem run_lists_bothOrders : ∃ t, run bothOrders = some t ∧ Lists bothOrders t.stack := by
  refine run_lists bothOrders_few fun q hq l => ?_
  exact (heldDepth_le_length l q).trans_lt (hq.length_le.trans_lt (by decide))

theorem heldDepth_replicate (n : Nat) : heldDepth 1 (List.replicate n (.acquire 1 0)) = n := by
  induction n with
  | zero => rfl
  | succ n ih => rw [replicate_succ', heldDepth_acquire, if_pos rfl, ih]

/-- The lock that is held `2 ^ 32` times is not listed with its depth. -/
theorem depth_overflows :
    ¬ ∀ events, AtMost16Held events → ∃ t, run events = some t ∧ Lists events t.stack := by
  intro h
  obtain ⟨t, -, hlists⟩ := h (List.replicate (2 ^ 32) (.acquire 1 0)) fun p hp => by
    refine ⟨{1}, by decide, fun l hl => Finset.mem_singleton.mpr ?_⟩
    obtain ⟨ip, hip⟩ := acquire_mem hl
    cases eq_of_mem_replicate (hp.subset hip)
    rfl
  have hdepth := heldDepth_replicate (2 ^ 32)
  obtain ⟨entry, hentry, hlock⟩ := mem_map.mp ((hlists.mem 1).mpr (hdepth.symm ▸ by decide))
  have heq := hlists.depth entry hentry
  rw [hlock, hdepth] at heq
  exact absurd heq entry.depth.toNat_lt.ne

end Runs

end Tables

end JexOs.Lockdep
