import JexOs.Workqueue
import JexOs.Lib.Chain

/-!
# Which items the work queue keeps

Scheduling an item that is pending cuts off what is behind it; at the end it links the item to itself, and
`workqueue_run` does not return.
-/

namespace JexOs.Workqueue

open Linked List Function

/-- An item that is scheduled while it is pending stays where it is. -/
def pendingStep (q : List UInt32) : Event → List UInt32
  | .schedule w => if w.addr ∈ q then q else q ++ [w.addr]
  | .dequeue => q.tail

/-- The items scheduled and not yet dequeued, in order of scheduling. -/
def pending (q : List UInt32) (events : List Event) : List UInt32 := events.foldl pendingStep q

def IdleWhenScheduled : List UInt32 → List Event → Prop
  | _, [] => True
  | q, .schedule w :: events => w.addr ∉ q ∧ IdleWhenScheduled (q ++ [w.addr]) events
  | q, .dequeue :: events => IdleWhenScheduled q.tail events

def turnEvents : List (List Work) → List Event
  | [] => []
  | turn :: turns => turn.map .schedule ++ .dequeue :: turnEvents turns

theorem idle_append {done rest : List Event} {q : List UInt32} : IdleWhenScheduled q (done ++ rest) ↔
      IdleWhenScheduled q done ∧ IdleWhenScheduled (pending q done) rest := by
  induction done generalizing q with
  | nil => exact ⟨fun h => ⟨trivial, h⟩, And.right⟩
  | cons event done ih =>
    cases event with
    | schedule w =>
      constructor
      · intro h
        obtain ⟨hdone, hrest⟩ := ih.mp h.2
        refine ⟨⟨h.1, hdone⟩, ?_⟩
        rw [pending, foldl_cons, pendingStep, if_neg h.1]
        exact hrest
      · intro ⟨⟨hidle, hdone⟩, hrest⟩
        rw [pending, foldl_cons, pendingStep, if_neg hidle] at hrest
        exact ⟨hidle, ih.mpr ⟨hdone, hrest⟩⟩
    | dequeue => exact ih

/-- The list holds `q`, and `work_tail` its last item. -/
structure Holds (s : State) (q : List UInt32) : Prop where
  chain : Chain s.next 0 s.workHead q
  tail : s.workTail = q.getLastD 0
  nodup : q.Nodup

theorem boot_holds (next : UInt32 → UInt32) : Holds (boot next) [] where
  chain := rfl
  tail := rfl
  nodup := nodup_nil

section Step

variable {s : State} {q : List UInt32} {w : Work}

variable (h : Holds s q)

include h

theorem Holds.last : (q = [] ∧ s.workTail = 0) ∨
      ∃ before last, q = before ++ [last] ∧ s.workTail = last ∧ last ≠ 0 ∧ last ∉ before := by
  rcases eq_nil_or_concat' q with rfl | ⟨before, last, rfl⟩
  · exact .inl ⟨rfl, h.tail⟩
  · have hlast : last ∈ before ++ [last] := mem_append_right before mem_cons_self
    have htail := h.tail
    rw [getLastD_concat] at htail
    have hnodup := (nodup_append.mp h.nodup).2.2
    exact .inr ⟨before, last, rfl, htail, h.chain.ne_stop last hlast,
      fun hmem => hnodup last hmem last mem_cons_self rfl⟩

theorem Holds.schedule (hidle : w.addr ∉ q) : Holds (scheduleWork w s) (q ++ [w.addr]) := by
  have hnodup : (q ++ [w.addr]).Nodup := by
    refine nodup_append.mpr ⟨h.nodup, nodup_cons.mpr ⟨not_mem_nil, nodup_nil⟩, ?_⟩
    rintro a ha b hb rfl
    exact hidle (mem_singleton.mp hb ▸ ha)
  rcases h.last with ⟨rfl, htail⟩ | ⟨before, last, rfl, htail, hne, hlast⟩
  · unfold scheduleWork
    rw [if_neg (not_not_intro htail)]
    exact
      { chain := ⟨rfl, w.nonnull, update_self _ _ _⟩
        tail := rfl
        nodup := hnodup }
  · have hw : w.addr ≠ last := fun he => hidle (he ▸ mem_append_right before mem_cons_self)
    have hend : s.next last = 0 := h.chain.suffix
    unfold scheduleWork
    rw [if_pos (htail ▸ hne), htail]
    refine
      { chain := ?_
        tail := getLastD_concat.symm
        nodup := hnodup }
    rw [append_assoc]
    refine Chain.insert h.chain w.nonnull (update_self _ _ _) ?_ ?_
    · calc Function.update (Function.update s.next w.addr 0) last w.addr w.addr
          = Function.update s.next w.addr 0 w.addr := update_of_ne hw _ _
        _ = 0 := update_self _ _ _
        _ = s.next last := hend.symm
    · intro other hother
      rw [append_nil] at hother
      have hother_last : other ≠ last := fun he => hlast (he ▸ hother)
      have hother_w : other ≠ w.addr := fun he => hidle (he ▸ mem_append_left _ hother)
      exact (update_of_ne hother_last _ _).trans (update_of_ne hother_w _ _)

theorem Holds.dequeue : (dequeue s).1 = q.headD 0 ∧ Holds (dequeue s).2 q.tail := by
  obtain ⟨hchain, htail, hnodup⟩ := h
  unfold Workqueue.dequeue
  cases q with
  | nil =>
    have hhead : s.workHead = 0 := hchain
    rw [if_neg (not_not_intro hhead)]
    exact ⟨rfl, hchain, htail, hnodup⟩
  | cons first rest =>
    obtain ⟨hhead, hne, hrest⟩ := hchain
    rw [hhead, if_pos hne]
    refine ⟨rfl, ?_⟩
    have hnext := hrest.head_eq
    cases rest with
    | nil =>
      exact
        { chain := hrest
          tail := if_pos hnext
          nodup := nodup_nil }
    | cons second rest =>
      have hsecond : s.next first ≠ 0 := hnext ▸ hrest.ne_stop second mem_cons_self
      exact
        { chain := hrest
          tail := (if_neg hsecond).trans (htail.trans getLastD_cons)
          nodup := hnodup.of_cons }

theorem Holds.lost (hpending : w.addr ∈ q) {nodes : List UInt32}
    (hnodes : Chain (scheduleWork w s).next 0 (scheduleWork w s).workHead nodes) : ∃ v ∈ q, v ∉ nodes := by
  obtain ⟨before, after, rfl⟩ := append_of_mem hpending
  obtain ⟨-, hafter, hapart⟩ := nodup_append.mp h.nodup
  have hw : ∀ other ∈ before, other ≠ w.addr := fun other hother => hapart other hother _ mem_cons_self
  rcases h.last with ⟨hnil, -⟩ | ⟨front, last, heq, htail, hne, -⟩
  · exact absurd hnil (append_ne_nil_of_right_ne_nil before (cons_ne_nil _ _))
  unfold scheduleWork at hnodes
  rw [if_pos (htail ▸ hne), htail] at hnodes
  rcases eq_nil_or_concat' after with rfl | ⟨middle, last', rfl⟩
  · obtain ⟨rfl, hl⟩ := append_inj' heq rfl
    obtain rfl : w.addr = last := (cons.inj hl).1
    refine (h.chain.not_loop hnodes ?_ (update_self _ _ _)).elim
    intro other hother
    exact (update_of_ne (hw other hother) _ _).trans (update_of_ne (hw other hother) _ _)
  · have hmem : last' ∈ middle ++ [last'] := mem_append_right middle mem_cons_self
    have hsplit : (before ++ w.addr :: middle) ++ [last'] = front ++ [last] := (append_assoc _ _ _).trans heq
    obtain ⟨-, hl⟩ := append_inj' hsplit rfl
    obtain rfl : last' = last := (cons.inj hl).1
    have hne_w : w.addr ≠ last' := fun he => (nodup_cons.mp hafter).1 (he ▸ hmem)
    have hlast' : ∀ other ∈ before, other ≠ last' := fun other hother =>
      hapart other hother _ (mem_cons_of_mem _ hmem)
    refine ⟨last', mem_append_right before (mem_cons_of_mem _ hmem), ?_⟩
    have hcut := h.chain.cut hnodes
      (fun other hother => (update_of_ne (hlast' other hother) _ _).trans
        (update_of_ne (hw other hother) _ _))
      ((update_of_ne hne_w _ _).trans (update_self _ _ _))
    rw [hcut]
    intro hin
    rcases mem_append.mp hin with hin | hin
    · exact hlast' last' hin rfl
    · exact hne_w (mem_singleton.mp hin).symm

theorem Holds.step {event : Event} (hidle : IdleWhenScheduled q [event]) :
    Holds (step s event) (pendingStep q event) := by
  cases event with
  | schedule w =>
    rw [pendingStep, if_neg hidle.1]
    exact h.schedule hidle.1
  | dequeue => exact h.dequeue.2

end Step

section Runs

variable {s : State} {q : List UInt32} {events : List Event} {turns : List (List Work)}

theorem Holds.run (h : Holds s q) (hidle : IdleWhenScheduled q events) :
    Holds (run s events) (pending q events) := by
  induction events generalizing s q with
  | nil => exact h
  | cons event events ih =>
    obtain ⟨hfirst, hrest⟩ := (@idle_append [event] events q).mp hidle
    exact ih (h.step hfirst) hrest

theorem Holds.idle (h : Holds s q) (hqueue : ∀ done rest, events = done ++ rest →
      Chain (Workqueue.run s done).next 0 (Workqueue.run s done).workHead (pending q done)) :
    IdleWhenScheduled q events := by
  induction events generalizing s q with
  | nil => trivial
  | cons event events ih =>
    have hfirst : IdleWhenScheduled q [event] := by
      cases event with
      | schedule w =>
        refine ⟨fun hpending => ?_, trivial⟩
        have hchain := hqueue [.schedule w] events rfl
        obtain ⟨v, hv, hlost⟩ := h.lost hpending hchain
        refine hlost ?_
        rw [pending, foldl_cons, pendingStep, if_pos hpending]
        exact hv
      | dequeue => trivial
    refine (@idle_append [event] events q).mpr ⟨hfirst, ih (h.step hfirst) ?_⟩
    intro done rest hsplit
    exact hqueue (event :: done) rest (congrArg (event :: ·) hsplit)

theorem Holds.turn {ws : List Work} (h : Holds s q) (hidle : IdleWhenScheduled q (ws.map .schedule)) :
    Holds (ws.foldl (fun s w => scheduleWork w s) s) (q ++ ws.map Work.addr) ∧
      pending q (ws.map .schedule) = q ++ ws.map Work.addr := by
  induction ws generalizing s q with
  | nil =>
    rw [map_nil, append_nil]
    exact ⟨h, rfl⟩
  | cons w ws ih =>
    obtain ⟨hrest, hpending⟩ := ih (h.schedule hidle.1) hidle.2
    have happ : q ++ [w.addr] ++ ws.map Work.addr = q ++ (w :: ws).map Work.addr := append_assoc _ _ _
    refine ⟨happ ▸ hrest, ?_⟩
    rw [← happ, ← hpending, map_cons, pending, foldl_cons, pendingStep, if_neg hidle.1]
    rfl

theorem idle_turns (hidle : IdleWhenScheduled q (turnEvents turns)) :
    IdleWhenScheduled q ((turns.headD []).map .schedule) ∧
      IdleWhenScheduled (pending q ((turns.headD []).map .schedule)).tail (turnEvents turns.tail) := by
  cases turns with
  | nil => exact ⟨trivial, trivial⟩
  | cons turn turns => exact idle_append.mp hidle

theorem headD_append_flatten (turns : List (List Work)) (n : Nat) :
    turns.headD [] ++ (turns.tail.take n).flatten = (turns.take (n + 1)).flatten := by
  cases turns with
  | nil => rw [tail_nil, take_nil, take_nil]; rfl
  | cons turn turns => rfl

theorem Holds.oneTurn (h : Holds s q) (hidle : IdleWhenScheduled q (turnEvents turns)) :
    (q ++ (turns.headD []).map Work.addr = [] ∧
      ∃ s', Holds s' [] ∧ ∀ fuel, workqueueRun (fuel + 1) turns s = some ([], s')) ∨
    ∃ w rest s', q ++ (turns.headD []).map Work.addr = w :: rest ∧ Holds s' rest ∧
      IdleWhenScheduled rest (turnEvents turns.tail) ∧ ∀ fuel, workqueueRun (fuel + 1) turns s =
        (workqueueRun fuel turns.tail s').map fun (ran, s) => (w :: ran, s) := by
  obtain ⟨hhere, hlater⟩ := idle_turns hidle
  obtain ⟨hturn, hpending⟩ := h.turn hhere
  rw [hpending] at hlater
  obtain ⟨htaken, hleft⟩ := hturn.dequeue
  generalize q ++ (turns.headD []).map Work.addr = q' at *
  cases q' with
  | nil =>
    refine .inl ⟨rfl, _, hleft, fun fuel => ?_⟩
    exact if_pos htaken
  | cons w rest =>
    refine .inr ⟨w, rest, _, rfl, hleft, hlater, fun fuel => ?_⟩
    have hw : w ≠ 0 := hturn.chain.ne_stop w mem_cons_self
    rw [Workqueue.workqueueRun]
    dsimp only
    rw [htaken, headD_cons, if_neg hw]
    cases workqueueRun fuel turns.tail _ with
    | none => rfl
    | some result => rfl

/-- What is pending is executed, with what is scheduled in the meantime, and the list is empty then. The
induction is on the number of items. -/
theorem Holds.workqueueRun (n : Nat) (h : Holds s q)
    (hidle : IdleWhenScheduled q (turnEvents turns)) (hn : q.length + turns.flatten.length ≤ n) :
    ∃ ran s', (∀ fuel, n < fuel → workqueueRun fuel turns s = some (ran, s')) ∧
      ran = q ++ ((turns.take (ran.length + 1)).flatten).map Work.addr ∧ Holds s' [] := by
  induction n using Nat.strongRecOn generalizing s q turns with
  | _ n ih =>
    have hturns : (turns.headD []).length + turns.tail.flatten.length = turns.flatten.length := by
      cases turns with
      | nil => rfl
      | cons turn turns => exact length_append.symm
    obtain ⟨hnil, s', hempty, hrun⟩ | ⟨w, rest, s', hcons, hrest, hlater, hrun⟩ := h.oneTurn hidle
    · refine ⟨[], s', fun fuel hfuel => ?_, ?_, hempty⟩
      · obtain ⟨fuel, rfl⟩ := Nat.exists_eq_succ_of_ne_zero (Nat.ne_of_gt (Nat.zero_lt_of_lt hfuel))
        exact hrun fuel
      · rw [length_nil, ← headD_append_flatten, take_zero, flatten_nil, append_nil]
        exact hnil.symm
    · have hlength := congrArg List.length hcons
      rw [length_append, length_map, length_cons] at hlength
      obtain ⟨ran, s'', hreturns, hran, hempty⟩ := ih (n - 1) (by omega) hrest hlater (by omega)
      refine ⟨w :: ran, s'', fun fuel hfuel => ?_, ?_, hempty⟩
      · obtain ⟨fuel, rfl⟩ := Nat.exists_eq_succ_of_ne_zero (Nat.ne_of_gt (Nat.zero_lt_of_lt hfuel))
        rw [hrun, hreturns fuel (by omega)]
        rfl
      · rw [length_cons, ← headD_append_flatten, map_append, ← append_assoc, hcons, cons_append]
        exact congrArg (w :: ·) hran

end Runs

/-- After every step the list holds what is pending in order of scheduling, and the `workqueue_run` executes that
and what is scheduled until it finds the list empty. -/
structure Serves (next : UInt32 → UInt32) (events : List Event) (turns : List (List Work)) : Prop where
  queue : ∀ done rest, events ++ turnEvents turns = done ++ rest →
    Chain (run (boot next) done).next 0 (run (boot next) done).workHead (pending [] done)
  executes : ∃ ran s,
    (∀ fuel, (pending [] events).length + turns.flatten.length < fuel →
      workqueueRun fuel turns (run (boot next) events) = some (ran, s)) ∧
    ran = pending [] events ++ ((turns.take (ran.length + 1)).flatten).map Work.addr ∧ s.workHead = 0

/-- The work queue serves exactly the histories in which every item is idle when it is scheduled. -/
theorem serves_iff_idle (next : UInt32 → UInt32) (events : List Event) (turns : List (List Work)) :
    Serves next events turns ↔ IdleWhenScheduled [] (events ++ turnEvents turns) := by
  constructor
  · intro h
    exact (boot_holds next).idle h.queue
  · intro hidle
    obtain ⟨hbefore, hturns⟩ := idle_append.mp hidle
    obtain ⟨ran, s, hreturns, hran, hempty⟩ :=
      ((boot_holds next).run hbefore).workqueueRun _ hturns (Nat.le_refl _)
    exact
      { queue := by
          intro done rest hsplit
          rw [hsplit] at hidle
          exact ((boot_holds next).run (idle_append.mp hidle).1).chain
        executes := ⟨ran, s, hreturns, hran, hempty.chain⟩ }

/-- Of `a, b, a` the item `b` is lost; with `a, a` the only item is linked to itself, and is executed for
ever. -/
theorem rescheduled_not_served :
    let a : Work := ⟨0x1000, by decide⟩
    let b : Work := ⟨0x2000, by decide⟩
    let cut := run (boot fun _ => 0) [.schedule a, .schedule b, .schedule a]
    let looped := run (boot fun _ => 0) [.schedule a, .schedule a]
    (workqueueRun 3 [] cut).map Prod.fst = some [a.addr] ∧
      (∀ fuel, workqueueRun fuel [] looped = none) ∧
      ¬ Serves (fun _ => 0) [.schedule a, .schedule b, .schedule a] [] ∧
      ¬ Serves (fun _ => 0) [.schedule a, .schedule a] [] := by
  intro a b cut looped
  refine ⟨by decide, ?_, ?_, ?_⟩
  · intro fuel
    induction fuel with
    | zero => rfl
    | succ fuel ih =>
      have hdequeue : dequeue looped = (a.addr, looped) := rfl
      rw [workqueueRun, headD_nil, foldl_nil, hdequeue]
      dsimp only
      rw [if_neg a.nonnull, tail_nil, ih]
      rfl
  · intro h
    have hidle := (boot_holds _).idle h.queue
    exact hidle.2.2.1 (by decide)
  · intro h
    have hidle := (boot_holds _).idle h.queue
    exact hidle.2.1 (by decide)

end JexOs.Workqueue
