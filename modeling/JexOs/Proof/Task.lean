import JexOs.Task
import JexOs.Lib.Segment
import JexOs.Proof.Kstack

/-!
# The ready queue

The linked list as a list of task structures. To the scheduler the queue is a ring: `Ring k r` gives it opened at
any of its tasks.
-/

namespace JexOs.Tasks

open Linked (Seg seg_append)
open List Function

/-- The address of a task structure, and the task. -/
abbrev Entry := Nat × Task

def Kernel.Cell (k : Kernel) (a : Nat) (t : Task) (next : Nat) : Prop :=
  k.nodes a = some { task := t, next := next }

def headOf (q : List Entry) : Nat := (q.map Prod.fst).headD 0

structure Queued (k : Kernel) (q : List Entry) : Prop where
  seg : Seg k.Cell k.readyQueue q 0
  nodup : (q.map Prod.fst).Nodup
  nonnull : ∀ p ∈ q, p.1 ≠ 0

section Basic

variable {k k' : Kernel} {q pre post : List Entry} {a n : Nat} {t : Task}

@[simp] theorem headOf_nil : headOf [] = 0 := rfl

@[simp] theorem headOf_cons (p : Entry) (q : List Entry) : headOf (p :: q) = p.1 := rfl

theorem headOf_append (hne : pre ≠ []) : headOf (pre ++ post) = headOf pre := by
  cases pre with
  | nil => exact absurd rfl hne
  | cons p pre => rfl

theorem Kernel.node_ok (h : k.Cell a t n) : k.node a = .ok { task := t, next := n } := by
  unfold Kernel.node
  rw [h]

theorem Queued.ready (h : Queued k q) : k.readyQueue = headOf q := h.seg.head_eq

section

variable (h : Queued k (pre ++ (a, t) :: post))

include h

theorem Queued.cell : k.Cell a t (headOf post) :=
  h.seg.mid.1

theorem Queued.node : k.node a = .ok { task := t, next := headOf post } := Kernel.node_ok h.cell

omit h in
theorem Queued.headOf_ne (h : Queued k (pre ++ post)) (hne : post ≠ []) : headOf post ≠ 0 := by
  cases post with
  | nil => exact absurd rfl hne
  | cons p post => exact h.nonnull p (by simp)

theorem Queued.not_mem : ∀ p ∈ pre ++ post, p.1 ≠ a := by
  have hnodup := h.nodup
  rw [map_append, map_cons, nodup_middle, nodup_cons] at hnodup
  intro p hp heq
  refine hnodup.1 ?_
  rw [← map_append]
  exact mem_map.mpr ⟨p, hp, heq⟩

theorem Queued.following : following k a = .ok (headOf (post ++ pre ++ [(a, t)])) := by
  unfold Tasks.following
  rw [h.node]
  cases post with
  | nil =>
    simp only [headOf_nil, nil_append, h.ready]
    rfl
  | cons p post =>
    have hne : p.1 ≠ 0 := h.nonnull p (by simp)
    simp only [headOf_cons, cons_append]
    change Except.ok (if p.1 = 0 then _ else p.1) = _
    rw [if_neg hne]

end

theorem Queued.congr (h : Queued k q) (hready : k'.readyQueue = k.readyQueue)
    (hnodes : ∀ p ∈ q, k'.nodes p.1 = k.nodes p.1) : Queued k' q :=
  { seg := by
      rw [hready]
      refine h.seg.congr fun p hp next hcell => ?_
      unfold Kernel.Cell
      rw [hnodes p hp]
      exact hcell
    nodup := h.nodup
    nonnull := h.nonnull }

theorem Queued.unique {q' : List Entry} (h : Queued k q) (h' : Queued k q') : q = q' :=
  h.seg.unique h'.seg h.nonnull h'.nonnull
    fun a t n t' n' hcell hcell' => by simpa using hcell.symm.trans hcell'

theorem Queued.perm_mem {k : Kernel} (h : Queued k q) {x : Nat × Task}
    (hx : x ∈ q) : ∃ n, k.Cell x.1 x.2 n := by
  obtain ⟨pre, post, rfl⟩ := append_of_mem hx
  exact ⟨_, h.cell⟩

end Basic

section Change

variable {k : Kernel} {q pre post : List Entry} {a : Nat} {t t' : Task}

theorem Kernel.nodes_setNode_self (k : Kernel) (a : Nat) (n : Node) :
    (k.setNode a n).nodes a = some n := update_self ..

theorem Kernel.nodes_setNode_of_ne (k : Kernel) {a b : Nat} (hne : b ≠ a) (n : Node) :
    (k.setNode a n).nodes b = k.nodes b := update_of_ne hne ..

theorem Queued.setNode (h : Queued k (pre ++ (a, t) :: post)) (t' : Task) :
    Queued (k.setNode a { task := t', next := headOf post }) (pre ++ (a, t') :: post) :=
  { seg := by
      refine h.seg.update (fun next hcell => ?_) fun p hp next hcell => ?_
      · have hnext := h.cell.symm.trans hcell
        cases hnext
        exact k.nodes_setNode_self a _
      · exact (k.nodes_setNode_of_ne (h.not_mem p hp) _).trans hcell
    nodup := by
      have hnodup := h.nodup
      rw [map_append, map_cons] at hnodup ⊢
      exact hnodup
    nonnull := by
      intro p hp
      have hnonnull := h.nonnull
      simp only [mem_append, mem_cons] at hp hnonnull
      rcases hp with hp | rfl | hp
      · exact hnonnull p (.inl hp)
      · exact hnonnull (a, t) (.inr (.inl rfl))
      · exact hnonnull p (.inr (.inr hp)) }

theorem Queued.setTask (h : Queued k (pre ++ (a, t) :: post)) (t' : Task) :
    k.setTask a t' = .ok (k.setNode a { task := t', next := headOf post }) := by
  unfold Kernel.setTask
  rw [h.node]
  rfl

end Change

section Unlink

variable {k : Kernel} {pre mid post : List Entry} {a p : Nat} {t c : Task}

theorem prev_run (h : Queued k (mid ++ (p, c) :: (a, t) :: post)) {fuel : Nat} (hfuel : mid.length < fuel) :
    Loop.run .spinning (prevBody k a) fuel (headOf (mid ++ [(p, c)])) = .ok p := by
  refine Loop.run_along (fun _ rest => headOf (rest ++ [(p, c)])) (fun pre x rest hmid => ?_) ?_ hfuel
  · subst hmid
    have hx : Queued k (pre ++ x :: (rest ++ (p, c) :: (a, t) :: post)) := by simpa using h
    have hne : x.1 ≠ 0 := hx.nonnull x (by simp)
    have hnext : headOf (rest ++ (p, c) :: (a, t) :: post) ≠ a := by
      have ha : Queued k ((pre ++ x :: rest ++ [(p, c)]) ++ (a, t) :: post) := by simpa using h
      cases rest with
      | nil => exact ha.not_mem (p, c) (by simp)
      | cons y rest => exact ha.not_mem y (by simp)
    have hsplit : headOf (rest ++ (p, c) :: (a, t) :: post) = headOf (rest ++ [(p, c)]) := by
      cases rest <;> rfl
    change prevBody k a x.1 = _
    unfold prevBody
    rw [if_neg hne, hx.node]
    change (if headOf _ = a then _ else _) = _
    rw [if_neg hnext, hsplit]
    rfl
  · change prevBody k a p = _
    unfold prevBody
    rw [if_neg (h.nonnull (p, c) (by simp)), h.node]
    exact if_pos rfl

structure Unlinked (k k' : Kernel) (q : List Entry) (a : Nat) : Prop where
  queued : Queued k' q
  machine : k'.machine = k.machine
  kernelDirectory : k'.kernelDirectory = k.kernelDirectory
  nextPid : k'.nextPid = k.nextPid
  currentTask : k'.currentTask = k.currentTask
  self : k'.nodes a = k.nodes a
  other : ∀ b, (∀ p ∈ q, p.1 ≠ b) → k'.nodes b = k.nodes b

theorem Queued.tail (h : Queued k ((a, t) :: post)) : Unlinked k { k with readyQueue := headOf post } post a :=
  { queued :=
      { seg := (Seg.mid (q := []) h.seg).2
        nodup := (nodup_cons.mp h.nodup).2
        nonnull := fun p hp => h.nonnull p (mem_cons_of_mem _ hp) }
    machine := rfl
    kernelDirectory := rfl
    nextPid := rfl
    currentTask := rfl
    self := rfl
    other := fun _ _ => rfl }

theorem Queued.relink (h : Queued k (pre ++ (p, c) :: (a, t) :: post)) :
    k.setNext p (headOf post) = .ok (k.setNode p { task := c, next := headOf post }) ∧
      Unlinked k (k.setNode p { task := c, next := headOf post }) (pre ++ (p, c) :: post) a := by
  have ha : Queued k ((pre ++ [(p, c)]) ++ (a, t) :: post) := by simpa using h
  refine ⟨?_,
    { queued :=
        { seg := ?_
          nodup := ?_
          nonnull := fun x hx => h.nonnull x ?_ }
      machine := rfl
      kernelDirectory := rfl
      nextPid := rfl
      currentTask := rfl
      self := ?_
      other := ?_ }⟩
  · unfold Kernel.setNext
    rw [h.node]
    rfl
  · refine h.seg.unlink (fun next hcell => ?_) fun x hx next hcell => ?_
    · have hnext := ha.cell.symm.trans hcell
      cases hnext
      exact k.nodes_setNode_self p _
    · have hne := h.not_mem x (by simp at hx ⊢; tauto)
      exact (k.nodes_setNode_of_ne hne _).trans hcell
  · have hnodup := ha.nodup
    rw [map_append, map_cons, nodup_middle, nodup_cons] at hnodup
    simpa using hnodup.2
  · simp at hx ⊢
    tauto
  · exact k.nodes_setNode_of_ne (h.not_mem (a, t) (by simp)) _
  · intro b hb
    exact k.nodes_setNode_of_ne (Ne.symm (hb (p, c) (by simp))) _

theorem unlink_spec (h : Queued k (pre ++ (a, t) :: post)) {fuel : Nat} (hfuel : pre.length < fuel) :
    ∃ k', unlink fuel k a = .ok k' ∧ Unlinked k k' (pre ++ post) a := by
  unfold unlink
  rw [h.node]
  rcases eq_nil_or_concat pre with rfl | ⟨pre, ⟨p, c⟩, rfl⟩
  · refine ⟨_, ?_, h.tail⟩
    have hready : k.readyQueue = a := h.ready
    change (if k.readyQueue = a then _ else _) = _
    rw [if_pos hready]
    rfl
  · rw [concat_eq_append] at h hfuel ⊢
    have h' : Queued k (pre ++ (p, c) :: (a, t) :: post) := by simpa using h
    have hready : k.readyQueue = headOf (pre ++ [(p, c)]) := by
      rw [h.ready, headOf_append (by simp)]
    have hne : k.readyQueue ≠ a := by
      rw [hready]
      cases pre with
      | nil => exact h.not_mem (p, c) (by simp)
      | cons x pre => exact h.not_mem x (by simp)
    have hrun := prev_run h' (show pre.length < fuel by simp at hfuel; omega)
    have hp : p ≠ 0 := h'.nonnull (p, c) (by simp)
    refine ⟨_, ?_, by simpa using h'.relink.2⟩
    change (if k.readyQueue = a then _ else _) = _
    rw [if_neg hne, hready, hrun]
    change (if p = 0 then _ else _) = _
    rw [if_neg hp]
    exact h'.relink.1

end Unlink

def Ring (k : Kernel) (r : List Entry) : Prop :=
  ∃ pre post, Queued k (pre ++ post) ∧ r = post ++ pre

section Rings

variable {k k' : Kernel} {r : List Entry} {a : Nat} {t : Task}

theorem Ring.split (h : Ring k ((a, t) :: r)) :
    ∃ pre post, Queued k (pre ++ (a, t) :: post) ∧ r = post ++ pre := by
  obtain ⟨pre, post, hq, heq⟩ := h
  cases post with
  | nil =>
    obtain rfl : (a, t) :: r = pre := by simpa using heq
    exact ⟨[], r, by simpa using hq, by simp⟩
  | cons p post =>
    obtain ⟨rfl, rfl⟩ : (a, t) = p ∧ r = post ++ pre := by simpa using heq
    exact ⟨pre, post, hq, rfl⟩

theorem Ring.rotate {x : Entry} (h : Ring k (x :: r)) : Ring k (r ++ [x]) := by
  obtain ⟨pre, post, hq, rfl⟩ := h.split
  exact ⟨pre ++ [x], post, by simpa using hq, by simp⟩

theorem Ring.nodup (h : Ring k r) : (r.map Prod.fst).Nodup := by
  obtain ⟨pre, post, hq, rfl⟩ := h
  refine hq.nodup.perm ?_
  exact Perm.map _ perm_append_comm

theorem Ring.nonnull (h : Ring k r) : ∀ p ∈ r, p.1 ≠ 0 := by
  obtain ⟨pre, post, hq, rfl⟩ := h
  intro p hp
  exact hq.nonnull p (perm_append_comm.mem_iff.mp hp)

theorem Ring.congr (h : Ring k r) (hready : k'.readyQueue = k.readyQueue)
    (hnodes : k'.nodes = k.nodes) : Ring k' r := by
  obtain ⟨pre, post, hq, rfl⟩ := h
  exact ⟨pre, post, hq.congr hready fun p _ => by rw [hnodes], rfl⟩

theorem Ring.node (h : Ring k ((a, t) :: r)) : ∃ n, k.node a = .ok { task := t, next := n } := by
  obtain ⟨pre, post, hq, -⟩ := h.split
  exact ⟨_, hq.node⟩

theorem Ring.following (h : Ring k ((a, t) :: r)) : following k a = .ok (headOf (r ++ [(a, t)])) := by
  obtain ⟨pre, post, hq, rfl⟩ := h.split
  exact hq.following

theorem skip_run {zs rest : List Entry} {b : Entry} {start : Nat}
    (h : Ring k (zs ++ b :: rest)) (hzombie : ∀ p ∈ zs, p.2.state = .zombie)
    (hlive : b.2.state ≠ .zombie) (hstart : ∀ p ∈ zs, p.1 ≠ start) {fuel : Nat} (hfuel : zs.length < fuel) :
    Loop.run .spinning (skipBody k start) fuel (headOf (zs ++ b :: rest)) = .ok b.1 := by
  induction zs generalizing rest fuel with
  | nil =>
    obtain ⟨fuel, rfl⟩ : ∃ n, fuel = n + 1 := ⟨fuel - 1, by omega⟩
    obtain ⟨n, hnode⟩ := h.node
    refine Loop.run_leave ?_ fuel
    unfold skipBody
    rw [nil_append, headOf_cons, hnode]
    change (if b.2.state = .zombie then _ else _) = _
    rw [if_neg hlive]
    rfl
  | cons z zs ih =>
    obtain ⟨fuel, rfl⟩ : ∃ n, fuel = n + 1 := ⟨fuel - 1, by omega⟩
    have hrotate : Ring k (zs ++ b :: (rest ++ [z])) := by simpa using h.rotate
    obtain ⟨n, hnode⟩ := h.node
    have hnext : ∃ x n, headOf (zs ++ b :: (rest ++ [z])) = x ∧
        ∃ s, k.node x = .ok { task := s, next := n } ∧ ¬ (x = start ∧ s.state = .zombie) := by
      cases zs with
      | nil =>
        obtain ⟨n, hnode⟩ := hrotate.node
        exact ⟨b.1, n, rfl, b.2, hnode, fun hboth => hlive hboth.2⟩
      | cons y zs =>
        obtain ⟨n, hnode⟩ := hrotate.node
        exact ⟨y.1, n, rfl, y.2, hnode, fun hboth => hstart y (by simp) hboth.1⟩
    obtain ⟨x, m, hx, s, hnode', hgo⟩ := hnext
    have hfollow : Tasks.following k z.1 = .ok x := by
      have hring := Ring.following (a := z.1) (t := z.2) h
      rwa [append_eq, append_assoc, cons_append, hx] at hring
    have hbody : skipBody k start z.1 = .ok (.again (headOf (zs ++ b :: (rest ++ [z])))) := by
      unfold skipBody
      rw [hnode]
      change (if z.2.state = .zombie then _ else _) = _
      rw [if_pos (hzombie z (by simp)), hfollow, hx]
      change (do let n ← k.node x; _) = _
      rw [hnode']
      change (if x = start ∧ s.state = .zombie then _ else _) = _
      rw [if_neg hgo]
      rfl
    rw [cons_append, headOf_cons, Loop.run_again hbody]
    exact ih hrotate (fun p hp => hzombie p (by simp [hp])) (fun p hp => hstart p (by simp [hp]))
      (by simp at hfuel; omega)

end Rings

def Fatal (t : Task) : Prop := (deliverSignals t).1 = true

instance (t : Task) : Decidable (Fatal t) := inferInstanceAs (Decidable (_ = _))

def delivered (t : Task) : Task := (deliverSignals t).2

theorem delivered_eq (t : Task) : delivered t =
      { t with
        signalPending := (delivered t).signalPending
        state := if Fatal t then .zombie else t.state } := by
  unfold delivered Fatal deliverSignals
  dsimp only
  split_ifs <;> simp_all

theorem delivered_pageDirectory (t : Task) : (delivered t).pageDirectory = t.pageDirectory := by
  rw [delivered_eq]

/-- What the loop that delivers signals has done: the tasks `dead` are terminated and unlinked, and
`b` is to go on. -/
structure Delivered (k k' : Kernel) (dead : List Entry) (b : Entry) (rest : List Entry) : Prop where
  ring : Ring k' ((b.1, delivered b.2) :: rest)
  currentTask : k'.currentTask = b.1
  machine : k'.machine = k.machine
  kernelDirectory : k'.kernelDirectory = k.kernelDirectory
  nextPid : k'.nextPid = k.nextPid
  unlinked : ∀ p ∈ dead, ∃ n, k'.Cell p.1 (delivered p.2) n
  other : ∀ a, (∀ p ∈ dead ++ b :: rest, p.1 ≠ a) → k'.nodes a = k.nodes a

section Signals

variable {k : Kernel} {r rest : List Entry} {b : Entry} {a fuel : Nat} {t : Task}

theorem signalBody_leave (fuel : Nat) (h : Ring k (b :: rest)) (hcur : k.currentTask = b.1)
    (hsafe : ¬ Fatal b.2) :
    ∃ k', signalBody fuel k = .ok (.leave k') ∧ Delivered k k' [] b rest := by
  obtain ⟨a, t⟩ := b
  obtain ⟨pre, post, hq, rfl⟩ := h.split
  have hset := hq.setTask (delivered t)
  refine ⟨_, ?_,
    { ring := ⟨pre, (a, delivered t) :: post, hq.setNode _, by simp⟩
      currentTask := hcur
      machine := rfl
      kernelDirectory := rfl
      nextPid := rfl
      unlinked := by simp
      other := fun x hx => k.nodes_setNode_of_ne (Ne.symm (hx (a, t) (by simp))) _ }⟩
  unfold signalBody
  rw [hcur]
  dsimp only
  rw [hq.node]
  change (do let k ← k.setTask a (delivered t); if (deliverSignals t).1 then _ else _) = _
  rw [hset]
  change (if Fatal t then _ else _) = _
  rw [if_neg (show ¬ Fatal t from hsafe)]
  rfl

theorem signalBody_again (h : Ring k ((a, t) :: r)) (hcur : k.currentTask = a) (hfatal : Fatal t)
    (hne : r ≠ []) (hfuel : r.length < fuel) :
    ∃ k', signalBody fuel k = .ok (.again k') ∧ Ring k' r ∧ k'.currentTask = headOf r ∧
      k'.machine = k.machine ∧ k'.kernelDirectory = k.kernelDirectory ∧ k'.nextPid = k.nextPid ∧
      (∃ n, k'.Cell a (delivered t) n) ∧ ∀ x, x ≠ a → (∀ p ∈ r, p.1 ≠ x) → k'.nodes x = k.nodes x := by
  obtain ⟨pre, post, hq, rfl⟩ := h.split
  have hset := hq.setTask (delivered t)
  have hq' := hq.setNode (delivered t)
  obtain ⟨k', hrun, hun⟩ := unlink_spec hq' (show pre.length < fuel by simp at hfuel; omega)
  have hcell : k'.Cell a (delivered t) (headOf post) := hun.self.trans hq'.cell
  have hnext : Tasks.following k' a = .ok (headOf (post ++ pre)) := by
    unfold Tasks.following
    rw [Kernel.node_ok hcell]
    change Except.ok (if headOf post = 0 then k'.readyQueue else headOf post) = _
    cases post with
    | nil =>
      rw [headOf_nil, if_pos rfl, hun.queued.ready]
      simp
    | cons p post =>
      rw [if_neg (hun.queued.headOf_ne (by simp)), headOf_append (by simp)]
  have hhead : headOf (post ++ pre) ≠ 0 := by
    have hperm : Queued k' (pre ++ post) := hun.queued
    obtain ⟨p, rest, heq⟩ := exists_cons_of_ne_nil hne
    rw [heq, headOf_cons]
    exact hperm.nonnull p (perm_append_comm.mem_iff.mp (heq ▸ mem_cons_self))
  refine ⟨{ k' with currentTask := headOf (post ++ pre) }, ?_,
    ⟨pre, post, hun.queued.congr rfl fun _ _ => rfl, rfl⟩, rfl, hun.machine, hun.kernelDirectory,
    hun.nextPid, ⟨_, hcell⟩, fun x hxa hx => ?_⟩
  · unfold signalBody
    rw [hcur]
    dsimp only
    rw [hq.node]
    change (do let k ← k.setTask a (delivered t); if (deliverSignals t).1 then _ else _) = _
    rw [hset]
    change (if Fatal t then _ else _) = _
    rw [if_pos hfatal, hrun]
    change (do let cur ← Tasks.following k' a; _) = _
    rw [hnext]
    change (if headOf (post ++ pre) = 0 then _ else _) = _
    rw [if_neg hhead]
    rfl
  · refine (hun.other x fun p hp => hx p (perm_append_comm.mem_iff.mp hp)).trans ?_
    exact k.nodes_setNode_of_ne hxa _

theorem signal_run (fuel : Nat) {dead : List Entry} (h : Ring k (dead ++ b :: rest))
    (hcur : k.currentTask = headOf (dead ++ b :: rest)) (hfatal : ∀ p ∈ dead, Fatal p.2)
    (hsafe : ¬ Fatal b.2) (hfuel : (dead ++ b :: rest).length ≤ fuel) {n : Nat} (hn : dead.length < n) :
    ∃ k', Loop.run .spinning (signalBody fuel) n k = .ok k' ∧ Delivered k k' dead b rest := by
  induction dead generalizing k n with
  | nil =>
    obtain ⟨n, rfl⟩ : ∃ i, n = i + 1 := ⟨n - 1, by omega⟩
    obtain ⟨k', hbody, hdone⟩ := signalBody_leave fuel h hcur hsafe
    exact ⟨k', Loop.run_leave hbody n, hdone⟩
  | cons p dead ih =>
    obtain ⟨n, rfl⟩ : ∃ i, n = i + 1 := ⟨n - 1, by omega⟩
    obtain ⟨k₁, hbody, hring, hcur₁, hmachine, hdir, hpid, ⟨next, hcell⟩, hother⟩ :=
      signalBody_again (a := p.1) (t := p.2) h hcur (hfatal p (by simp)) (by simp)
        (show (dead ++ b :: rest).length < fuel by simp at hfuel ⊢; omega)
    obtain ⟨k', hrun, hdone⟩ := ih hring hcur₁ (fun x hx => hfatal x (by simp [hx]))
      (by simp at hfuel ⊢; omega) (by simp at hn; omega)
    have hnodup := h.nodup
    rw [cons_append, map_cons, nodup_cons] at hnodup
    have hp : ∀ x ∈ dead ++ b :: rest, x.1 ≠ p.1 := fun x hx heq =>
      hnodup.1 (mem_map.mpr ⟨x, hx, heq⟩)
    refine ⟨k', (Loop.run_again hbody n).trans hrun,
      { ring := hdone.ring
        currentTask := hdone.currentTask
        machine := hdone.machine.trans hmachine
        kernelDirectory := hdone.kernelDirectory.trans hdir
        nextPid := hdone.nextPid.trans hpid
        unlinked := fun x hx => ?_
        other := fun a ha => ?_ }⟩
    · rcases mem_cons.mp hx with rfl | hx
      · exact ⟨next, (hdone.other _ hp).trans hcell⟩
      · exact hdone.unlinked x hx
    · rw [hdone.other a fun x hx => ha x (by simp at hx ⊢; tauto)]
      exact hother a (Ne.symm (ha p (by simp))) fun x hx => ha x (by simp at hx ⊢; tauto)

end Signals

/-- The first task behind the running one that is not a zombie. -/
def Skips (fuel : Nat) (k : Kernel) (cur : Nat) : Prop :=
  ∃ first, following k k.currentTask = .ok first ∧
    Loop.run .spinning (skipBody k k.currentTask) fuel first = .ok cur

/-- A switch from the running task `c`: the tasks behind it in the ring that the scheduler passes
over, the ones it terminates, and the one it resumes. -/
theorem taskSwitch_spec {k : Kernel} {c b : Entry} {r zs dead rest : List Entry} {fuel : Nat}
    (h : Ring k (c :: r)) (hcur : k.currentTask = c.1) (hsplit : r ++ [c] = zs ++ (dead ++ b :: rest))
    (hzombie : ∀ p ∈ zs, p.2.state = .zombie) (hstart : ∀ p ∈ zs, p.1 ≠ c.1)
    (hlive : ∀ p ∈ (dead ++ [b]).head?, p.2.state ≠ .zombie)
    (hfatal : ∀ p ∈ dead, Fatal p.2) (hsafe : ¬ Fatal b.2) (hfuel : r.length + 1 < fuel) :
    ∃ k₁ k₂, k₁.currentTask = headOf (dead ++ b :: (rest ++ zs)) ∧
      Ring k₁ (dead ++ b :: (rest ++ zs)) ∧ k₁ = { k with currentTask := k₁.currentTask } ∧
      Skips fuel k k₁.currentTask ∧ Loop.run .spinning (signalBody fuel) fuel k₁ = .ok k₂ ∧
      Delivered k k₂ dead b (rest ++ zs) ∧
      taskSwitch fuel k =
        .ok { k₂ with machine := { k₂.machine with dir := b.2.pageDirectory / 4096 } } := by
  have hlength := congrArg List.length hsplit
  simp only [length_append, length_cons, length_nil] at hlength
  have hring : Ring k (zs ++ (dead ++ b :: rest)) := hsplit ▸ h.rotate
  have hnull : k.currentTask ≠ 0 := by
    rw [hcur]
    exact h.nonnull c (by simp)
  obtain ⟨x, tail, hx⟩ : ∃ x tail, dead ++ b :: rest = x :: tail := by
    cases dead with
    | nil => exact ⟨b, rest, rfl⟩
    | cons y dead => exact ⟨y, dead ++ b :: rest, rfl⟩
  have hlive' : x.2.state ≠ .zombie := by
    refine hlive x ?_
    cases dead with
    | nil =>
      obtain ⟨rfl, -⟩ := cons.inj hx
      rfl
    | cons y dead =>
      obtain ⟨rfl, -⟩ := cons.inj hx
      rfl
  have hskip : Loop.run .spinning (skipBody k c.1) fuel (headOf (r ++ [c])) = .ok x.1 := by
    rw [hsplit, hx]
    exact skip_run (hx ▸ hring) hzombie hlive' hstart (by omega)
  -- behind the zombies the ring opens at the first live task
  have hring' : Ring { k with currentTask := x.1 } (dead ++ b :: (rest ++ zs)) := by
    have hturn : ∀ ys, Ring k (zs ++ ys) → Ring k (ys ++ zs) := by
      clear hsplit hring hskip hzombie hstart hlength
      induction zs with
      | nil => simp
      | cons z zs ih =>
        intro ys hys
        have hys' := ih (ys ++ [z]) (by simpa using Ring.rotate hys)
        simpa using hys'
    have hopen := hturn _ hring
    rw [append_assoc, cons_append] at hopen
    exact hopen.congr rfl rfl
  have hhead : x.1 = headOf (dead ++ b :: (rest ++ zs)) := by
    have hcons : dead ++ b :: (rest ++ zs) = x :: (tail ++ zs) := by
      rw [← cons_append, ← append_assoc, hx, cons_append]
    rw [hcons, headOf_cons]
  obtain ⟨k₂, hrun, hdone⟩ := signal_run fuel (n := fuel) hring' hhead hfatal hsafe
    (by simp only [length_append, length_cons]; omega) (by omega)
  obtain ⟨n, hnode⟩ := hdone.ring.node
  have hfollow : following k k.currentTask = .ok (headOf (r ++ [c])) := by
    rw [hcur]
    exact Ring.following (a := c.1) (t := c.2) h
  refine ⟨_, k₂, hhead, hring', rfl, ⟨_, hfollow, by rw [hcur]; exact hskip⟩, hrun,
    { ring := hdone.ring
      currentTask := hdone.currentTask
      machine := hdone.machine
      kernelDirectory := hdone.kernelDirectory
      nextPid := hdone.nextPid
      unlinked := hdone.unlinked
      other := hdone.other }, ?_⟩
  unfold taskSwitch
  rw [if_neg hnull, hfollow]
  change (do
    let cur ← Loop.run Stop.spinning (skipBody k k.currentTask) fuel (headOf (r ++ [c]))
    _) = _
  rw [hcur, hskip]
  change (do
    let k ← Loop.run Stop.spinning (signalBody fuel) fuel { k with currentTask := x.1 }
    _) = _
  rw [hrun]
  change resume k₂ = _
  unfold resume
  rw [hdone.currentTask, hnode, ← delivered_pageDirectory b.2]
  rfl

end JexOs.Tasks
