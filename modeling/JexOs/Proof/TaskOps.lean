import JexOs.Proof.Task

/-!
# Calls on the ready queue

What `fork`, `_task_exit`, `waitpid` and the signal calls do to the list of tasks.
-/

namespace JexOs.Tasks

open Linked (Seg)
open Paging (Machine)
open Kstack List Function

section Append

variable {k : Kernel} {pre mid : List Entry} {p child : Nat} {c t : Task} {fuel : Nat}

theorem tail_run (h : Queued k (mid ++ [(p, c)])) (hfuel : mid.length < fuel) :
    Loop.run .spinning (tailBody k) fuel (headOf (mid ++ [(p, c)])) = .ok p := by
  refine Loop.run_along (fun _ rest => headOf (rest ++ [(p, c)])) (fun pre x rest hmid => ?_) ?_ hfuel
  · subst hmid
    have hx : Queued k ((pre ++ [x]) ++ (rest ++ [(p, c)])) := by simpa using h
    have hx' : Queued k (pre ++ x :: (rest ++ [(p, c)])) := by simpa using h
    change tailBody k x.1 = _
    unfold tailBody
    rw [hx'.node]
    change (if headOf _ = 0 then _ else _) = _
    rw [if_neg (hx.headOf_ne (by simp))]
    rfl
  · change tailBody k p = _
    unfold tailBody
    rw [h.node]
    rfl

theorem enqueue_spec {q : List Entry} (h : Queued k q) (hne : q ≠ [])
    (hcell : k.Cell child t 0) (hnull : child ≠ 0) (hfresh : ∀ x ∈ q, x.1 ≠ child) (hfuel : q.length ≤ fuel) :
    ∃ k', enqueue fuel k child = .ok k' ∧ Queued k' (q ++ [(child, t)]) ∧
      k'.machine = k.machine ∧ k'.kernelDirectory = k.kernelDirectory ∧ k'.nextPid = k.nextPid ∧
      k'.currentTask = k.currentTask ∧ ∀ a, (∀ x ∈ q, x.1 ≠ a) → k'.nodes a = k.nodes a := by
  obtain ⟨pre, ⟨p, c⟩, rfl⟩ : ∃ pre x, q = pre ++ [x] :=
    ⟨q.dropLast, q.getLast hne, (dropLast_append_getLast hne).symm⟩
  have hrun := tail_run h (show pre.length < fuel by simp at hfuel; omega)
  have hset : k.setNext p child = .ok (k.setNode p { task := c, next := child }) := by
    unfold Kernel.setNext
    rw [h.node]
    rfl
  have hother : ∀ a, a ≠ p → (k.setNode p { task := c, next := child }).nodes a = k.nodes a :=
    fun a ha => k.nodes_setNode_of_ne ha _
  refine ⟨k.setNode p { task := c, next := child }, ?_,
    { seg := ?_
      nodup := ?_
      nonnull := ?_ }, rfl, rfl, rfl, rfl, fun a ha => hother a (Ne.symm (ha (p, c) (by simp)))⟩
  · unfold enqueue
    rw [h.ready, hrun]
    exact hset
  · rw [append_assoc]
    refine h.seg.snoc (k.nodes_setNode_self p _) ?_ fun x hx next hx' => ?_
    · exact (hother child (Ne.symm (hfresh (p, c) (by simp)))).trans hcell
    · exact (hother x.1 (h.not_mem x (by simpa using hx))).trans hx'
  · rw [map_append, nodup_append]
    refine ⟨h.nodup, by simp, ?_⟩
    intro a ha b hb
    obtain ⟨x, hx, rfl⟩ := mem_map.mp ha
    obtain rfl : b = child := by simpa using hb
    exact hfresh x hx
  · intro x hx
    rcases mem_append.mp hx with hx | hx
    · exact h.nonnull x hx
    · obtain rfl : x = (child, t) := by simpa using hx
      exact hnull

end Append

def reparent (dying : Nat) (p : Entry) : Entry :=
  (p.1, if p.2.parentPid = dying then { p.2 with parentPid := 1 } else p.2)

structure Beside (k k' : Kernel) (q : List Entry) : Prop where
  machine : k'.machine = k.machine
  kernelDirectory : k'.kernelDirectory = k.kernelDirectory
  nextPid : k'.nextPid = k.nextPid
  currentTask : k'.currentTask = k.currentTask
  other : ∀ a, (∀ p ∈ q, p.1 ≠ a) → k'.nodes a = k.nodes a

theorem Beside.refl (k : Kernel) (q : List Entry) : Beside k k q := ⟨rfl, rfl, rfl, rfl, fun _ _ => rfl⟩

theorem Beside.setNode {k : Kernel} {q : List Entry} {a : Nat} (n : Node)
    (hmem : ∃ p ∈ q, p.1 = a) : Beside k (k.setNode a n) q :=
  { machine := rfl
    kernelDirectory := rfl
    nextPid := rfl
    currentTask := rfl
    other := fun b hb => by
      obtain ⟨p, hp, rfl⟩ := hmem
      exact k.nodes_setNode_of_ne (Ne.symm (hb p hp)) n }

theorem Beside.trans {k k' k'' : Kernel} {q q' : List Entry} (h : Beside k k' q)
    (h' : Beside k' k'' q') (hsame : q'.map Prod.fst = q.map Prod.fst) : Beside k k'' q :=
  { machine := h'.machine.trans h.machine
    kernelDirectory := h'.kernelDirectory.trans h.kernelDirectory
    nextPid := h'.nextPid.trans h.nextPid
    currentTask := h'.currentTask.trans h.currentTask
    other := fun a ha => by
      refine (h'.other a fun p hp heq => ?_).trans (h.other a ha)
      have hmem : a ∈ q.map Prod.fst := hsame ▸ mem_map.mpr ⟨p, hp, heq⟩
      obtain ⟨x, hx, heq'⟩ := mem_map.mp hmem
      exact ha x hx heq' }

section Reparent

variable {k : Kernel} {pre post : List Entry} {dying fuel : Nat}

theorem reparent_run (dying : Nat) (pre : List Entry) (h : Queued k (pre ++ post))
    (hfuel : post.length < fuel) :
    ∃ k', Loop.run .spinning (reparentBody dying) fuel (k, headOf post) = .ok k' ∧
      Queued k' (pre ++ post.map (reparent dying)) ∧ Beside k k' (pre ++ post) := by
  induction post generalizing k pre fuel with
  | nil =>
    obtain ⟨fuel, rfl⟩ : ∃ n, fuel = n + 1 := ⟨fuel - 1, by omega⟩
    exact ⟨k, Loop.run_leave rfl fuel, by simpa using h, Beside.refl k _⟩
  | cons x post ih =>
    obtain ⟨fuel, rfl⟩ : ∃ n, fuel = n + 1 := ⟨fuel - 1, by omega⟩
    obtain ⟨a, t⟩ := x
    have hne : a ≠ 0 := h.nonnull (a, t) (by simp)
    obtain ⟨k₁, hbody, hq, hbeside⟩ : ∃ k₁,
        reparentBody dying (k, a) = .ok (.again (k₁, headOf post)) ∧
        Queued k₁ (pre ++ reparent dying (a, t) :: post) ∧
        Beside k k₁ (pre ++ (a, t) :: post) := by
      unfold reparentBody
      dsimp only
      rw [if_neg hne, h.node]
      by_cases hchild : t.parentPid = dying
      · refine ⟨k.setNode a { task := { t with parentPid := 1 }, next := headOf post }, ?_, ?_,
          Beside.setNode _ ⟨(a, t), by simp⟩⟩
        · change (if t.parentPid = dying then _ else _) = _
          rw [if_pos hchild, h.setTask]
          rfl
        · have hset := h.setNode { t with parentPid := 1 }
          rwa [show (a, { t with parentPid := 1 }) = reparent dying (a, t) by
            unfold reparent; rw [if_pos hchild]] at hset
      · refine ⟨k, ?_, ?_, Beside.refl k _⟩
        · change (if t.parentPid = dying then _ else _) = _
          rw [if_neg hchild]
          rfl
        · rwa [show reparent dying (a, t) = (a, t) by unfold reparent; rw [if_neg hchild]]
    obtain ⟨k₂, hrun, hq₂, hbeside₂⟩ := ih (pre ++ [reparent dying (a, t)])
      (by simpa using hq) (show post.length < fuel by simp at hfuel; omega)
    refine ⟨k₂, (Loop.run_again hbody fuel).trans hrun, by simpa using hq₂, hbeside.trans hbeside₂ ?_⟩
    simp [reparent]

end Reparent

section Look

variable {k : Kernel} {q pre mid post : List Entry} {a fuel self : Nat} {t : Task} {pid : Int}

theorem kill_again {x : Entry} (h : Queued k (pre ++ x :: post)) (hid : (x.2.id : Int) ≠ pid) :
    killBody k pid x.1 = .ok (.again (headOf post)) := by
  unfold killBody
  rw [if_neg (h.nonnull x (by simp)), h.node]
  change (if (x.2.id : Int) = pid then _ else _) = _
  rw [if_neg hid]
  rfl

theorem kill_run_none (h : Queued k q) (hnone : ∀ p ∈ q, (p.2.id : Int) ≠ pid) (hfuel : q.length < fuel) :
    Loop.run .spinning (killBody k pid) fuel (headOf q) = .ok 0 := by
  refine Loop.run_along (fun _ rest => headOf rest) (fun pre x rest hq => ?_) rfl hfuel
  subst hq
  exact kill_again h (hnone x (by simp))

theorem kill_run_some (h : Queued k (mid ++ (a, t) :: post)) (hnone : ∀ p ∈ mid, (p.2.id : Int) ≠ pid)
    (hid : (t.id : Int) = pid) (hfuel : mid.length < fuel) :
    Loop.run .spinning (killBody k pid) fuel (headOf (mid ++ (a, t) :: post)) = .ok a := by
  refine Loop.run_along (fun _ rest => headOf (rest ++ (a, t) :: post)) (fun pre x rest hmid => ?_) ?_ hfuel
  · subst hmid
    rw [append_assoc] at h
    exact kill_again h (hnone x (by simp))
  · change killBody k pid a = _
    unfold killBody
    rw [if_neg (h.nonnull (a, t) (by simp)), h.node]
    exact if_pos hid

theorem children_run (self : Nat) (pre : List Entry) (h : Queued k (pre ++ post))
    (hfuel : post.length < fuel) :
    Loop.run .spinning (childrenBody k self) fuel (headOf post) =
      .ok (post.any fun p => p.2.parentPid = self) := by
  induction post generalizing pre fuel with
  | nil =>
    obtain ⟨fuel, rfl⟩ : ∃ n, fuel = n + 1 := ⟨fuel - 1, by omega⟩
    exact Loop.run_leave rfl fuel
  | cons x post ih =>
    obtain ⟨fuel, rfl⟩ : ∃ n, fuel = n + 1 := ⟨fuel - 1, by omega⟩
    have hne : x.1 ≠ 0 := h.nonnull x (by simp)
    by_cases hchild : x.2.parentPid = self
    · rw [any_cons, decide_eq_true hchild, Bool.true_or]
      refine Loop.run_leave ?_ fuel
      unfold childrenBody
      rw [headOf_cons, if_neg hne, h.node]
      change (if x.2.parentPid = self then _ else _) = _
      rw [if_pos hchild]
      rfl
    · have hbody : childrenBody k self x.1 = .ok (.again (headOf post)) := by
        unfold childrenBody
        rw [if_neg hne, h.node]
        change (if x.2.parentPid = self then _ else _) = _
        rw [if_neg hchild]
        rfl
      rw [headOf_cons, Loop.run_again hbody, any_cons, decide_eq_false hchild, Bool.false_or]
      exact ih (pre ++ [x]) (by simpa using h) (by simp at hfuel; omega)

end Look

def lastOf (q : List Entry) : Nat := (q.getLast?.map Prod.fst).getD 0

theorem lastOf_concat (q : List Entry) (p : Entry) : lastOf (q ++ [p]) = p.1 := by
  unfold lastOf
  rw [getLast?_concat]
  rfl

section Wait

variable {k k' : Kernel} {q pre mid post : List Entry} {a fuel self kt : Nat} {t : Task} {pid : Int}

theorem wanted_again {x : Entry} (h : Queued k (pre ++ x :: post)) (hnot : ¬ Wanted self pid x.2) :
    wantedBody k self pid (lastOf pre, x.1) = .ok (.again (lastOf (pre ++ [x]), headOf post)) := by
  unfold wantedBody
  dsimp only
  rw [if_neg (h.nonnull x (by simp)), h.node]
  change (if Wanted self pid x.2 then _ else _) = _
  rw [if_neg hnot, lastOf_concat]
  rfl

theorem wanted_run_none (h : Queued k q) (hnone : ∀ p ∈ q, ¬ Wanted self pid p.2) (hfuel : q.length < fuel) :
    Loop.run .spinning (wantedBody k self pid) fuel (0, headOf q) = .ok none := by
  refine Loop.run_along (fun pre rest => (lastOf pre, headOf rest)) (fun pre x rest hq => ?_) rfl hfuel
  subst hq
  exact wanted_again h (hnone x (by simp))

theorem wanted_run_some (h : Queued k (mid ++ (a, t) :: post))
    (hnone : ∀ p ∈ mid, ¬ Wanted self pid p.2) (hwanted : Wanted self pid t) (hfuel : mid.length < fuel) :
    Loop.run .spinning (wantedBody k self pid) fuel (0, headOf (mid ++ (a, t) :: post)) =
      .ok (some (lastOf mid, a)) := by
  refine Loop.run_along (fun pre rest => (lastOf pre, headOf (rest ++ (a, t) :: post)))
    (fun pre x rest hmid => ?_) ?_ hfuel
  · subst hmid
    rw [append_assoc] at h
    exact wanted_again h (hnone x (by simp))
  · change wantedBody k self pid (lastOf mid, a) = _
    unfold wantedBody
    dsimp only
    rw [if_neg (h.nonnull (a, t) (by simp)), h.node]
    exact if_pos hwanted

theorem bypass_spec (h : Queued k (pre ++ (a, t) :: post)) :
    ∃ k', bypass k (lastOf pre) (headOf post) = .ok k' ∧ Unlinked k k' (pre ++ post) a := by
  unfold bypass
  rcases eq_nil_or_concat pre with rfl | ⟨pre, ⟨p, c⟩, rfl⟩
  · exact ⟨_, if_pos rfl, h.tail⟩
  · rw [concat_eq_append] at h ⊢
    have h' : Queued k (pre ++ (p, c) :: (a, t) :: post) := by simpa using h
    have hp : p ≠ 0 := h'.nonnull (p, c) (by simp)
    rw [lastOf_concat, if_neg hp]
    exact ⟨_, h'.relink.1, by simpa using h'.relink.2⟩

def StackOk (t : Task) : Prop := t.kstack ≠ 0 → Stacked t.id

theorem freeStack_spec (hm : StackTable k.machine kt) (hstack : StackOk t) :
    ∃ m, freeStack k t = .ok { k with machine := m } ∧ KeepsTable kt k.machine m := by
  unfold freeStack
  by_cases hnone : t.kstack = 0
  · rw [if_pos hnone]
    exact ⟨k.machine, rfl, KeepsTable.refl hm⟩
  · obtain ⟨m, hfree, hkeeps⟩ := freeKernelStack_spec k.kernelDirectory hm (hstack hnone)
    rw [if_neg hnone, hfree]
    exact ⟨m, rfl, hkeeps⟩

structure Reaped (kt : Nat) (k k' : Kernel) (q gone : List Entry) : Prop where
  machine : KeepsTable kt k.machine k'.machine
  kernelDirectory : k'.kernelDirectory = k.kernelDirectory
  nextPid : k'.nextPid = k.nextPid
  currentTask : k'.currentTask = k.currentTask
  freed : ∀ p ∈ gone, k'.nodes p.1 = none
  other : ∀ a, (∀ p ∈ q, p.1 ≠ a) → k'.nodes a = k.nodes a

theorem Unlinked.reaped {k₁ : Kernel} {m : Machine} (h : Queued k (pre ++ (a, t) :: post))
    (hun : Unlinked k k₁ (pre ++ post) a) (hm : KeepsTable kt k.machine m) :
    let k' := { k₁ with machine := m }.kfree a
    Queued k' (pre ++ post) ∧ Reaped kt k k' (pre ++ (a, t) :: post) [(a, t)] := by
  refine ⟨hun.queued.congr rfl fun p hp => update_of_ne (h.not_mem p hp) _ _,
    { machine := hm
      kernelDirectory := hun.kernelDirectory
      nextPid := hun.nextPid
      currentTask := hun.currentTask
      freed := ?_
      other := ?_ }⟩
  · intro p hp
    obtain rfl : p = (a, t) := by simpa using hp
    exact update_self ..
  · intro b hb
    have hne : b ≠ a := Ne.symm (hb (a, t) (by simp))
    refine (update_of_ne hne _ _).trans (hun.other b fun p hp => hb p ?_)
    simp at hp ⊢
    tauto

def Swept (self : Nat) (t : Task) : Prop :=
  t.state = .zombie ∧ t.parentPid = self ∧ t.id ≠ self

instance (self : Nat) (t : Task) : Decidable (Swept self t) :=
  inferInstanceAs (Decidable (_ ∧ _ ∧ _))

theorem sweep_run (self : Nat) (pre : List Entry) (h : Queued k (pre ++ post)) (hm : StackTable k.machine kt)
    (hstack : ∀ p ∈ post, StackOk p.2) (hfuel : post.length < fuel) :
    ∃ k', Loop.run .spinning (sweepBody self) fuel (k, lastOf pre, headOf post) = .ok k' ∧
      Queued k' (pre ++ post.filter fun p => ¬ Swept self p.2) ∧
      Reaped kt k k' (pre ++ post) (post.filter fun p => Swept self p.2) := by
  induction post generalizing k pre fuel with
  | nil =>
    obtain ⟨fuel, rfl⟩ : ∃ n, fuel = n + 1 := ⟨fuel - 1, by omega⟩
    exact ⟨k, Loop.run_leave rfl fuel, by simpa using h,
      ⟨KeepsTable.refl hm, rfl, rfl, rfl, by simp, fun _ _ => rfl⟩⟩
  | cons x post ih =>
    obtain ⟨fuel, rfl⟩ : ∃ n, fuel = n + 1 := ⟨fuel - 1, by omega⟩
    obtain ⟨a, t⟩ := x
    have hne : a ≠ 0 := h.nonnull (a, t) (by simp)
    by_cases hswept : Swept self t
    · obtain ⟨k₁, hbypass, hun⟩ := bypass_spec h
      have hm₁ : StackTable k₁.machine kt := hun.machine ▸ hm
      obtain ⟨m, hfree, hkeeps⟩ := freeStack_spec hm₁ (hstack (a, t) (by simp))
      obtain ⟨hq₂, hreaped⟩ := hun.reaped h (hun.machine ▸ hkeeps)
      have hbody : sweepBody self (k, lastOf pre, a) =
          .ok (.again ({ k₁ with machine := m }.kfree a, lastOf pre, headOf post)) := by
        unfold sweepBody
        dsimp only
        rw [if_neg hne, h.node]
        change (if Swept self t then _ else _) = _
        rw [if_pos hswept, hbypass]
        change (do let k ← freeStack k₁ t; _) = _
        rw [hfree]
        rfl
      obtain ⟨k', hrun, hq', hreaped'⟩ := ih pre hq₂ hreaped.machine.table
        (fun p hp => hstack p (by simp [hp])) (show post.length < fuel by simp at hfuel; omega)
      refine ⟨k', (Loop.run_again hbody fuel).trans hrun, by simpa [hswept] using hq',
        { machine := hreaped.machine.trans hreaped'.machine
          kernelDirectory := hreaped'.kernelDirectory.trans hreaped.kernelDirectory
          nextPid := hreaped'.nextPid.trans hreaped.nextPid
          currentTask := hreaped'.currentTask.trans hreaped.currentTask
          freed := ?_
          other := ?_ }⟩
      · intro p hp
        rw [filter_cons_of_pos (by simpa using hswept)] at hp
        rcases mem_cons.mp hp with rfl | hp
        · exact (hreaped'.other a h.not_mem).trans (hreaped.freed (a, t) (by simp))
        · exact hreaped'.freed p hp
      · intro b hb
        refine (hreaped'.other b fun p hp => hb p ?_).trans (hreaped.other b hb)
        simp at hp ⊢
        tauto
    · have hbody : sweepBody self (k, lastOf pre, a) =
          .ok (.again (k, lastOf (pre ++ [(a, t)]), headOf post)) := by
        unfold sweepBody
        dsimp only
        rw [if_neg hne, h.node]
        change (if Swept self t then _ else _) = _
        rw [if_neg hswept, lastOf_concat]
        rfl
      obtain ⟨k', hrun, hq', hreaped'⟩ := ih (pre ++ [(a, t)])
        (by simpa using h) hm (fun p hp => hstack p (by simp [hp]))
        (show post.length < fuel by simp at hfuel; omega)
      refine ⟨k', (Loop.run_again hbody fuel).trans hrun, by simpa [hswept] using hq', ?_⟩
      simpa [hswept] using hreaped'

theorem waitpid_reaps (status : Bool) {c : Nat} {s : Task}
    (h : Queued k (pre ++ (a, t) :: post)) (hcur : k.node k.currentTask = .ok { task := s, next := c })
    (hnone : ∀ p ∈ pre, ¬ Wanted s.id pid p.2) (hwanted : Wanted s.id pid t)
    (hm : StackTable k.machine kt) (hstack : ∀ p ∈ pre ++ (a, t) :: post, StackOk p.2)
    (hfuel : (pre ++ (a, t) :: post).length < fuel) :
    ∃ k', waitpid fuel k pid status =
        .ok (.reaped t.id (if status then some t.exitCode else none), k') ∧
      Queued k' ((pre ++ post).filter fun p => ¬ Swept s.id p.2) ∧
      Reaped kt k k' (pre ++ (a, t) :: post)
        ((a, t) :: (pre ++ post).filter fun p => Swept s.id p.2) := by
  simp only [length_append, length_cons] at hfuel
  have hscan := wanted_run_some h hnone hwanted (show pre.length < fuel by omega)
  obtain ⟨m, hfree, hkeeps⟩ := freeStack_spec hm (hstack (a, t) (by simp))
  have h' : Queued { k with machine := m } (pre ++ (a, t) :: post) := h.congr rfl fun _ _ => rfl
  obtain ⟨k₁, hbypass, hun⟩ := bypass_spec h'
  obtain ⟨hq₂, hreaped⟩ := hun.reaped h' (KeepsTable.refl hkeeps.table)
  have hmachine : { k₁ with machine := m } = k₁ := by
    rw [← show k₁.machine = m from hun.machine]
  rw [hmachine] at hq₂ hreaped
  obtain ⟨k', hrun, hq', hreaped'⟩ := sweep_run s.id []
    (show Queued (k₁.kfree a) ([] ++ (pre ++ post)) from hq₂) hreaped.machine.table (fun p hp =>
      hstack p (by simp at hp ⊢; tauto))
    (show (pre ++ post).length < fuel by simp only [length_append]; omega)
  refine ⟨k', ?_, by simpa using hq',
    { machine := hkeeps.trans (hreaped.machine.trans hreaped'.machine)
      kernelDirectory := hreaped'.kernelDirectory.trans hreaped.kernelDirectory
      nextPid := hreaped'.nextPid.trans hreaped.nextPid
      currentTask := hreaped'.currentTask.trans hreaped.currentTask
      freed := ?_
      other := ?_ }⟩
  · unfold waitpid
    rw [hcur]
    change (do let r ← Loop.run Stop.spinning (wantedBody k s.id pid) fuel (0, k.readyQueue); _) = _
    rw [h.ready, hscan]
    change (do let n ← k.node a; _) = _
    rw [h.node]
    change (do let k ← freeStack k t; _) = _
    rw [hfree]
    change (do let k ← bypass { k with machine := m } (lastOf pre) (headOf post); _) = _
    rw [hbypass]
    change (do
      let k ← Loop.run Stop.spinning (sweepBody s.id) fuel (k₁.kfree a, 0, (k₁.kfree a).readyQueue)
      _) = _
    rw [hq₂.ready]
    change (do
      let k ← Loop.run Stop.spinning (sweepBody s.id) fuel (k₁.kfree a, lastOf [], headOf _)
      _) = _
    rw [hrun]
    rfl
  · intro p hp
    rcases mem_cons.mp hp with rfl | hp
    · exact (hreaped'.other a h.not_mem).trans (hreaped.freed (a, t) (by simp))
    · exact hreaped'.freed p (by simpa using hp)
  · intro b hb
    refine (hreaped'.other b fun p hp => hb p ?_).trans (hreaped.other b hb)
    simp at hp ⊢
    tauto

theorem waitpid_waits {status : Bool} {c : Nat} {s : Task} (h : Queued k q)
    (hcur : k.node k.currentTask = .ok { task := s, next := c })
    (hnone : ∀ p ∈ q, ¬ Wanted s.id pid p.2) (hfuel : q.length < fuel) :
    waitpid fuel k pid status =
      .ok (if q.any (fun p => p.2.parentPid = s.id) then .again else .echild, k) := by
  have hscan := wanted_run_none h hnone hfuel
  have hchildren := children_run s.id [] h hfuel
  unfold waitpid
  rw [hcur]
  change (do let r ← Loop.run Stop.spinning (wantedBody k s.id pid) fuel (0, k.readyQueue); _) = _
  rw [h.ready, hscan]
  rw [hchildren]
  cases q.any fun p => p.2.parentPid = s.id <;> rfl

end Wait

/-! ### Fuel

A call that ends does so with any larger bound on the passes of its loops, and with the same result.
-/

section Fuel

open Loop (bind_eq_ok run_le)

variable {k : Kernel} {n m : Nat}

theorem unlink_le {a : Nat} {r : Kernel} (h : unlink n k a = .ok r) (hle : n ≤ m) : unlink m k a = .ok r := by
  obtain ⟨x, hx, hrest⟩ := bind_eq_ok.mp h
  refine bind_eq_ok.mpr ⟨x, hx, ?_⟩
  split at hrest
  · next hhead => rwa [if_pos hhead]
  · next hhead =>
      rw [if_neg hhead]
      obtain ⟨p, hp, hend⟩ := bind_eq_ok.mp hrest
      exact bind_eq_ok.mpr ⟨p, run_le (fun _ _ h => h) hp hle, hend⟩

theorem signalBody_le {r : Loop.Pass Kernel Kernel} (h : signalBody n k = .ok r) (hle : n ≤ m) :
    signalBody m k = .ok r := by
  obtain ⟨x, hx, hrest⟩ := bind_eq_ok.mp h
  refine bind_eq_ok.mpr ⟨x, hx, ?_⟩
  obtain ⟨k₁, hset, hrest⟩ := bind_eq_ok.mp hrest
  refine bind_eq_ok.mpr ⟨k₁, hset, ?_⟩
  split at hrest
  · next hdead =>
      rw [if_pos hdead]
      obtain ⟨k₂, hunlink, hend⟩ := bind_eq_ok.mp hrest
      exact bind_eq_ok.mpr ⟨k₂, unlink_le hunlink hle, hend⟩
  · next hdead => rwa [if_neg hdead]

theorem taskSwitch_le {r : Kernel} (h : taskSwitch n k = .ok r) (hle : n ≤ m) : taskSwitch m k = .ok r := by
  unfold taskSwitch at h ⊢
  split at h
  · next hnull => rwa [if_pos hnull]
  · next hnull =>
      rw [if_neg hnull]
      obtain ⟨first, hfirst, hrest⟩ := bind_eq_ok.mp h
      refine bind_eq_ok.mpr ⟨first, hfirst, ?_⟩
      obtain ⟨cur, hskip, hrest⟩ := bind_eq_ok.mp hrest
      refine bind_eq_ok.mpr ⟨cur, run_le (fun _ _ h => h) hskip hle, ?_⟩
      obtain ⟨k₁, hsignals, hend⟩ := bind_eq_ok.mp hrest
      exact bind_eq_ok.mpr ⟨k₁, run_le (fun _ _ h => signalBody_le h hle) hsignals hle, hend⟩

theorem enqueue_le {a : Nat} {r : Kernel} (h : enqueue n k a = .ok r)
    (hle : n ≤ m) : enqueue m k a = .ok r := by
  obtain ⟨x, hx, hrest⟩ := bind_eq_ok.mp h
  exact bind_eq_ok.mpr ⟨x, run_le (fun _ _ h => h) hx hle, hrest⟩

/-- The two forks differ in what happens to the structure if there is no stack. -/
def forkWith (discard : (Nat → Option Node) → Nat → Option Node) (fuel : Nat) (k : Kernel)
    (g : Grant) : Result (Int × Kernel) := do
  let parent ← k.node k.currentTask
  let k := { k with machine := g.machine }
  if g.child = 0 then return (-enomem, k)
  else if g.newDir = 0 then return (-enomem, k)
  else
    let pid := k.nextPid
    let k := { k with nextPid := k.nextPid + 1 }
    let t := childOf parent.task pid g.newDir
    match allocKernelStack k.kernelDirectory k.machine pid with
    | none => .error .pageFault
    | some (kstack, m) =>
      let k := { k with machine := m }.setNode g.child
        { task := { t with kstack := kstack }
          next := 0 }
      if kstack = 0 then return (-enomem, { k with nodes := discard k.nodes })
      else return ((pid : Int), ← enqueue fuel k g.child)

theorem fork_eq (n : Nat) (k : Kernel) (g : Grant) : fork n k g = forkWith id n k g := rfl

theorem kernelFork_eq (n : Nat) (k : Kernel) (g : Grant) :
    kernelFork n k g = forkWith (fun nodes => Function.update nodes g.child none) n k g := rfl

theorem forkWith_le {discard : (Nat → Option Node) → Nat → Option Node} {g : Grant} {r : Int × Kernel}
    (h : forkWith discard n k g = .ok r) (hle : n ≤ m) : forkWith discard m k g = .ok r := by
  obtain ⟨x, hx, hrest⟩ := bind_eq_ok.mp h
  refine bind_eq_ok.mpr ⟨x, hx, ?_⟩
  dsimp only at hrest ⊢
  split_ifs at hrest ⊢ with h₁ h₂
  · exact hrest
  · exact hrest
  · split at hrest
    · cases hrest
    · split_ifs at hrest ⊢ with h₃
      · exact hrest
      · obtain ⟨k₁, hk₁, hend⟩ := bind_eq_ok.mp hrest
        exact bind_eq_ok.mpr ⟨k₁, enqueue_le hk₁ hle, hend⟩

theorem fork_le {g : Grant} {r : Int × Kernel} (h : fork n k g = .ok r)
    (hle : n ≤ m) : fork m k g = .ok r := by
  rw [fork_eq] at h ⊢
  exact forkWith_le h hle

theorem kernelFork_le {g : Grant} {r : Int × Kernel} (h : kernelFork n k g = .ok r) (hle : n ≤ m) :
    kernelFork m k g = .ok r := by
  rw [kernelFork_eq] at h ⊢
  exact forkWith_le h hle

theorem taskExit_le {code : Int} {r : Kernel} (h : taskExit n k code = .ok r) (hle : n ≤ m) :
    taskExit m k code = .ok r := by
  obtain ⟨x, hx, hrest⟩ := bind_eq_ok.mp h
  refine bind_eq_ok.mpr ⟨x, hx, ?_⟩
  split at hrest
  · next hinit => rwa [if_pos hinit]
  · next hinit =>
      rw [if_neg hinit]
      obtain ⟨k₁, hk₁, hrest⟩ := bind_eq_ok.mp hrest
      refine bind_eq_ok.mpr ⟨k₁, run_le (fun _ _ h => h) hk₁ hle, ?_⟩
      obtain ⟨y, hy, hrest⟩ := bind_eq_ok.mp hrest
      obtain ⟨k₂, hk₂, hend⟩ := bind_eq_ok.mp hrest
      exact bind_eq_ok.mpr ⟨y, hy, bind_eq_ok.mpr ⟨k₂, hk₂, taskSwitch_le hend hle⟩⟩

theorem waitpid_le {pid : Int} {status : Bool} {r : Waited × Kernel}
    (h : waitpid n k pid status = .ok r) (hle : n ≤ m) : waitpid m k pid status = .ok r := by
  obtain ⟨x, hx, hrest⟩ := bind_eq_ok.mp h
  refine bind_eq_ok.mpr ⟨x, hx, ?_⟩
  obtain ⟨found, hscan, hrest⟩ := bind_eq_ok.mp hrest
  refine bind_eq_ok.mpr ⟨found, run_le (fun _ _ h => h) hscan hle, ?_⟩
  cases found with
  | none =>
    obtain ⟨any, hany, hend⟩ := bind_eq_ok.mp hrest
    exact bind_eq_ok.mpr ⟨any, run_le (fun _ _ h => h) hany hle, hend⟩
  | some p =>
    obtain ⟨y, hy, hrest⟩ := bind_eq_ok.mp hrest
    obtain ⟨k₁, hk₁, hrest⟩ := bind_eq_ok.mp hrest
    obtain ⟨k₂, hk₂, hrest⟩ := bind_eq_ok.mp hrest
    obtain ⟨k₃, hk₃, hend⟩ := bind_eq_ok.mp hrest
    exact bind_eq_ok.mpr ⟨y, hy, bind_eq_ok.mpr ⟨k₁, hk₁, bind_eq_ok.mpr ⟨k₂, hk₂,
      bind_eq_ok.mpr ⟨k₃, run_le (fun _ _ h => h) hk₃ hle, hend⟩⟩⟩⟩

theorem sysKill_le {pid sig : Int} {r : Int × Kernel} (h : sysKill n k pid sig = .ok r)
    (hle : n ≤ m) : sysKill m k pid sig = .ok r := by
  unfold sysKill at h ⊢
  split_ifs at h ⊢ with h₁ h₂
  · exact h
  · exact h
  · obtain ⟨t, ht, hend⟩ := bind_eq_ok.mp h
    exact bind_eq_ok.mpr ⟨t, run_le (fun _ _ h => h) ht hle, hend⟩

end Fuel

end JexOs.Tasks
