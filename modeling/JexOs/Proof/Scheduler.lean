import JexOs.Proof.TaskRun

/-!
# The scheduler

What holds of `task_switch` in every state a run can enter it in: it finds a task, because init is
always there; which task that is, and when the choice is a dead one.
-/

namespace JexOs.Tasks

open Kstack List Option

def SwitchState (kt : Nat) (k₀ k : Kernel) : Prop :=
  ∃ es k₁, Run kt k₀ es k₁ ∧
    (k = k₁ ∨ ∃ fuel code n, k₁.node k₁.currentTask = .ok n ∧ n.task.id ≠ 1 ∧
      dying fuel k₁ code = .ok k)

def Resumes (k : Kernel) (P : Task → Prop) : Prop :=
  ∃ n, ∀ fuel, n ≤ fuel → ∃ k' node, taskSwitch fuel k = .ok k' ∧
    k'.node k'.currentTask = .ok node ∧ P node.task

section States

variable {kt : Nat} {k k₀ : Kernel} {es : List Event}

theorem SwitchState.upcoming (hboot : Booted kt k₀) (hk : SwitchState kt k₀ k) :
    ∃ r, Upcoming k r ∧ Healthy kt k r := by
  obtain ⟨es, k₁, hrun, hk⟩ := hk
  obtain ⟨q, hq, h⟩ := hrun.healthy hboot
  obtain ⟨r, hr, hperm⟩ := exists_upcoming hq h
  obtain rfl | ⟨fuel, code, n, hnode, hid, hdying⟩ := hk
  · exact ⟨r, hr, h.perm hperm.symm⟩
  · obtain ⟨⟨a, t⟩, others, rfl, hring, hcur⟩ := hr
    obtain rfl : a = k₁.currentTask := hcur.symm
    obtain ⟨m, hnode'⟩ := hring.node
    cases hnode.symm.trans hnode'
    obtain ⟨k', hdying', -, hr', h', -⟩ :=
      exit_spec code hq h ⟨_, _, rfl, hring, rfl⟩ hid
        (show q.length < max fuel (q.length + 1) by omega)
    cases (dying_le hdying (le_max_left _ _)).symm.trans hdying'
    exact ⟨_, hr', h'⟩

/-- Init and the running task are in the queue, alive, and every call returns, unless a fork runs out of pids. -/
theorem Run.init_alive (hboot : Booted kt k₀) (hrun : Run kt k₀ es k) :
    ∃ q, Queued k q ∧ (q.map fun p => p.2.id).count 1 = 1 ∧
      (∀ p ∈ q, p.2.id = 1 → p.2.state ≠ .zombie ∧ p.2.signalPending = 0) ∧ (∃ p ∈ q, p.1 = k.currentTask) ∧
      ∀ c : Call, c.Allowed kt k → ∃ n, ∀ fuel, n ≤ fuel →
        (∃ w k', c.run fuel k = .ok (w, k')) ∨ c.IsFork ∧ c.run fuel k = .error .pageFault := by
  obtain ⟨q, hq, h⟩ := hrun.healthy hboot
  obtain ⟨i, hi, hone, hlive, hnone⟩ := h.init
  refine ⟨q, hq, ?_, fun p hp hid => ?_, h.current, fun c hc => ⟨q.length + 1, fun fuel hfuel => ?_⟩⟩
  · exact count_eq_one_of_mem h.ids (mem_map.mpr ⟨i, hi, hone⟩)
  · obtain rfl := h.eq_of_id hp hi (hid.trans hone.symm)
    exact ⟨hlive, hnone⟩
  · obtain ⟨w, k', -, hok, -⟩ | ⟨hfork, -, hfault⟩ := Call.total hq h hfuel hc
    · exact .inl ⟨w, k', hok⟩
    · exact .inr ⟨hfork, hfault⟩

/-- A run with a task that exits and one that is killed. -/
theorem init_alive_trial : ∃ k₀ es k, Booted 640 k₀ ∧ Run 640 k₀ es k ∧ es.length = 8 ∧
    ∃ q, Queued k q ∧ (q.map fun p => p.2.id).count 1 = 1 := by
  obtain ⟨k₀, es, k, hboot, hrun, hcheck⟩ := passes_run
    (show passes [.spawn 101 700, .spawn 102 701, .switch, .switch, .exit 3, .kill 2 9, .switch,
      .waitpid (-1) true] (fun x => x.2.1.length == 8) = true by decide +kernel)
  obtain ⟨q, hq, hcount, -⟩ := Run.init_alive hboot hrun
  exact ⟨k₀, es, k, hboot, hrun, by simpa using hcheck, q, hq, hcount⟩

end States

/-- No zombie without a fatal signal stands right behind the tasks that a switch will terminate. -/
def Clear (r : List Entry) : Prop :=
  ∀ zs x dead z rest, r = zs ++ x :: (dead ++ z :: rest) → (∀ p ∈ zs, p.2.state = .zombie) →
    x.2.state ≠ .zombie → Fatal x.2 → (∀ p ∈ dead, Fatal p.2) → z.2.state = .zombie → Fatal z.2

section Dead

variable {kt : Nat} {k k₀ : Kernel} {r zs dead rest : List Entry} {b : Entry}

theorem first_unique {α : Type} {P : α → Prop} {pre pre' post post' : List α} {x x' : α}
    (heq : pre ++ x :: post = pre' ++ x' :: post') (hpre : ∀ y ∈ pre, P y) (hx : ¬ P x)
    (hpre' : ∀ y ∈ pre', P y) (hx' : ¬ P x') : pre = pre' ∧ x = x' ∧ post = post' := by
  induction pre generalizing pre' with
  | nil =>
    cases pre' with
    | nil =>
      obtain ⟨rfl, rfl⟩ := cons.inj heq
      exact ⟨rfl, rfl, rfl⟩
    | cons y pre' =>
      obtain ⟨rfl, -⟩ := cons.inj heq
      exact absurd (hpre' x mem_cons_self) hx
  | cons y pre ih =>
    cases pre' with
    | nil =>
      obtain ⟨rfl, -⟩ := cons.inj heq
      exact absurd (hpre y mem_cons_self) hx'
    | cons y' pre' =>
      obtain ⟨rfl, htail⟩ := cons.inj heq
      obtain ⟨rfl, rfl, rfl⟩ := ih htail (fun z hz => hpre z (mem_cons_of_mem _ hz))
        fun z hz => hpre' z (mem_cons_of_mem _ hz)
      exact ⟨rfl, rfl, rfl⟩

theorem Lineup.clear_iff (hl : Lineup r zs dead b rest) : Clear r ↔ b.2.state ≠ .zombie := by
  constructor
  · intro hclear hzombie
    cases dead with
    | nil => exact hl.live b rfl hzombie
    | cons x dead =>
      refine hl.safe (hclear zs x dead b rest hl.eq hl.zombie (hl.live x rfl)
        (hl.fatal x mem_cons_self) (fun p hp => hl.fatal p (mem_cons_of_mem _ hp)) hzombie)
  · intro hlive zs' x dead' z rest' heq hzs hx hfatal hdead hzombie
    by_contra hsafe
    obtain ⟨y, tail, hy⟩ : ∃ y tail, dead ++ b :: rest = y :: tail := by
      cases dead with
      | nil => exact ⟨b, rest, rfl⟩
      | cons y dead => exact ⟨y, dead ++ b :: rest, rfl⟩
    have hfirst : (dead ++ [b]).head? = some y := by
      cases dead with
      | nil => simpa using (cons.inj hy).1
      | cons w dead => simpa using (cons.inj hy).1
    -- the zombies in front are the same, and so are the tasks that are terminated behind them
    obtain ⟨-, rfl, rfl⟩ := first_unique (hy ▸ hl.eq.symm.trans heq) hl.zombie (hl.live y hfirst) hzs hx
    have hfront : ∀ p ∈ y :: dead', Fatal p.2 := by
      intro p hp
      rcases mem_cons.mp hp with rfl | hp
      · exact hfatal
      · exact hdead p hp
    obtain ⟨-, rfl, -⟩ := first_unique (P := fun p : Entry => Fatal p.2)
      (show dead ++ b :: rest = (y :: dead') ++ z :: rest' from hy) hl.fatal hl.safe hfront hsafe
    exact hlive hzombie

theorem delivered_state {t : Task} (hsafe : ¬ Fatal t) : (delivered t).state = t.state := by
  rw [delivered_eq, if_neg hsafe]

theorem Switched.node {k' : Kernel} (h : Switched kt k k' dead b rest) :
    ∃ n, k'.node k'.currentTask = .ok { task := delivered b.2, next := n } := by
  rw [h.currentTask]
  exact h.ring.node

/-- The task that `task_switch` resumes is alive exactly if the way is clear. -/
theorem resumes_live_iff (hboot : Booted kt k₀) (hk : SwitchState kt k₀ k) (hr : Upcoming k r) :
    Resumes k (fun t => t.state ≠ .zombie) ↔ Clear r := by
  obtain ⟨r', hr', h⟩ := hk.upcoming hboot
  obtain ⟨q, hq, hperm⟩ := hr'.queued
  have hhealthy := h.perm hperm
  obtain ⟨zs, dead, b, rest, hl⟩ := exists_lineup (hhealthy.perm (hr.perm hq).symm).exists_safe
  obtain ⟨-, k', -, -, -, -, hrun, hdone⟩ := switch_spec (hhealthy.perm (hr.perm hq).symm) hr hl
    (show r.length < q.length + 1 by rw [(hr.perm hq).length_eq]; exact Nat.lt_succ_self _)
  obtain ⟨n, hnode⟩ := hdone.node
  rw [hl.clear_iff]
  constructor
  · rintro ⟨m, hresumes⟩
    obtain ⟨k'', node, hrun', hnode', hlive⟩ := hresumes (max m (q.length + 1)) (le_max_left _ _)
    cases (taskSwitch_le hrun (le_max_right m _)).symm.trans hrun'
    cases hnode.symm.trans hnode'
    rwa [← delivered_state hl.safe]
  · intro hlive
    refine ⟨q.length + 1, fun fuel hfuel => ⟨k', _, taskSwitch_le hrun hfuel, hnode, ?_⟩⟩
    dsimp only
    rwa [delivered_state hl.safe]

def resumedState (k : Kernel) : Option TaskState :=
  match taskSwitch 20 k with
  | .ok k' => (k'.nodes k'.currentTask).map fun n => n.task.state
  | .error _ => none

theorem resumedState_eq {s : TaskState} (h : resumedState k = some s) : Resumes k fun t => t.state = s := by
  unfold resumedState at h
  split at h
  · next k' hrun =>
      obtain ⟨node, hnode, rfl⟩ := map_eq_some_iff.mp h
      refine ⟨20, fun fuel hfuel => ⟨k', node, taskSwitch_le hrun hfuel, ?_, rfl⟩⟩
      unfold Kernel.node
      rw [hnode]
  · cases h

/-- Task 3 has exited; the switch from init goes to task 2. -/
theorem resumes_live_trial : ∃ k₀ k r, Booted 640 k₀ ∧ SwitchState 640 k₀ k ∧ Upcoming k r ∧
    Resumes k (fun t => t.state ≠ .zombie) ∧ Clear r := by
  obtain ⟨k₀, es, k, hboot, hrun, hcheck⟩ := passes_run
    (show passes [.spawn 101 700, .spawn 102 701, .switch, .switch, .exit 3]
      (fun x => resumedState x.2.2 == some .ready) = true by decide +kernel)
  have hk : SwitchState 640 k₀ k := ⟨es, k, hrun, .inl rfl⟩
  obtain ⟨r, hr, -⟩ := hk.upcoming hboot
  have hlive : Resumes k fun t => t.state ≠ .zombie := by
    obtain ⟨n, hresumes⟩ := resumedState_eq (eq_of_beq hcheck)
    refine ⟨n, fun fuel hfuel => ?_⟩
    obtain ⟨k', node, hswitch, hnode, hready⟩ := hresumes fuel hfuel
    exact ⟨k', node, hswitch, hnode, fun hzombie => by cases hready.symm.trans hzombie⟩
  exact ⟨k₀, k, r, hboot, hk, hr, hlive, (resumes_live_iff hboot hk hr).mp hlive⟩

/-- Task 2 is killed while the zombie of task 3 stands behind it. -/
theorem resumes_dead : ¬ ∀ k₀ k, Booted 640 k₀ → SwitchState 640 k₀ k → Resumes k fun t =>
    t.state ≠ .zombie := by
  intro hclaim
  obtain ⟨k₀, es, k, hboot, hrun, hcheck⟩ := passes_run
    (show passes [.spawn 101 700, .spawn 102 701, .switch, .switch, .exit 3, .kill 2 9]
      (fun x => resumedState x.2.2 == some .zombie) = true by decide +kernel)
  obtain ⟨n, hresumes⟩ := resumedState_eq (eq_of_beq hcheck)
  obtain ⟨m, hlive⟩ := hclaim k₀ k hboot ⟨es, k, hrun, .inl rfl⟩
  obtain ⟨k', node, hswitch, hnode, hzombie⟩ := hresumes (max m n) (le_max_right _ _)
  obtain ⟨k'', node', hswitch', hnode', hnot⟩ := hlive (max m n) (le_max_left _ _)
  cases hswitch.symm.trans hswitch'
  cases hnode.symm.trans hnode'
  exact hnot hzombie

end Dead

def Deliverable (t : Task) (s : Nat) : Prop :=
  t.signalPending.getLsbD s = true ∧ t.signalBlocked.getLsbD s = false

/-- The signal is `SIGKILL`, or its disposition is the default and the default terminates. -/
def Terminates (t : Task) (s : Nat) : Prop :=
  s = sigkill ∨ t.signalHandlers s = sigDfl ∧ s ≠ sigchld

def Doomed (t : Task) : Prop := ∃ s, Deliverable t s ∧ Terminates t s

/-- The signal with the lowest number that can be delivered terminates. -/
def DoomedFirst (t : Task) : Prop :=
  ∃ s, Deliverable t s ∧ (∀ i, i < s → ¬ Deliverable t i) ∧ Terminates t s

/-- A state in which the signal loop of the switch looks at its current task. -/
def Considered (fuel : Nat) (k j : Kernel) : Prop :=
  ∃ cur, Skips fuel k cur ∧ Loop.Reach (signalBody fuel) { k with currentTask := cur } j

section Fatal

variable {kt fuel : Nat} {k k₀ j : Kernel} {q r zs dead rest : List Entry} {b : Entry} {t : Task}

theorem deliverable_iff (s : Nat) : (t.signalPending &&& ~~~t.signalBlocked).getLsbD s = true ↔
    Deliverable t s := by
  rw [BitVec.getLsbD_and, BitVec.getLsbD_not]
  constructor
  · intro h
    simp only [Bool.and_eq_true, Bool.not_eq_true'] at h
    exact ⟨h.1, h.2.2⟩
  · rintro ⟨hpending, hblocked⟩
    have hlt : s < 32 := BitVec.lt_of_getLsbD hpending
    rw [hpending, hblocked, decide_eq_true hlt]
    rfl

theorem ctz_spec {w : BitVec 32}
    (hw : w ≠ 0) : w.getLsbD (ctz w) = true ∧ ∀ i, i < ctz w → w.getLsbD i = false := by
  have hex : ∃ i ∈ List.range 32, w.getLsbD i = true := by
    by_contra hnone
    push Not at hnone
    refine hw (BitVec.eq_of_getLsbD_eq fun i hi => ?_)
    simpa using hnone i (mem_range.mpr hi)
  have hlt : ctz w < (List.range 32).length := findIdx_lt_length.mpr hex
  refine ⟨?_, fun i hi => ?_⟩
  · have hfound := findIdx_getElem (w := hlt)
    have hself : (List.range 32)[ctz w] = ctz w := getElem_range _
    exact (congrArg w.getLsbD hself).symm.trans hfound
  · have hbefore := not_of_lt_findIdx hi
    simpa using hbefore

theorem fatal_iff : Fatal t ↔ DoomedFirst t := by
  unfold Fatal deliverSignals
  by_cases hnone : t.signalPending &&& ~~~t.signalBlocked = 0
  · rw [if_pos hnone]
    refine ⟨fun h => absurd h Bool.false_ne_true, fun ⟨s, hs, _⟩ => ?_⟩
    have hbit := (deliverable_iff s).mpr hs
    rw [hnone] at hbit
    simp at hbit
  · obtain ⟨hset, hlow⟩ := ctz_spec hnone
    have hdeliver := (deliverable_iff _).mp hset
    have hlow' : ∀ i, i < ctz (t.signalPending &&& ~~~t.signalBlocked) → ¬ Deliverable t i := by
      intro i hi hi'
      have hbit := (deliverable_iff i).mpr hi'
      rw [hlow i hi] at hbit
      cases hbit
    -- the signal looked at is the one the definition speaks of
    have hunique : DoomedFirst t ↔ Terminates t (ctz (t.signalPending &&& ~~~t.signalBlocked)) := by
      refine ⟨fun ⟨s, hs, hfirst, hterm⟩ => ?_, fun hterm => ⟨_, hdeliver, hlow', hterm⟩⟩
      obtain hlt | rfl | hgt := lt_trichotomy s (ctz (t.signalPending &&& ~~~t.signalBlocked))
      · exact absurd hs (hlow' s hlt)
      · exact hterm
      · exact absurd hdeliver (hfirst _ hgt)
    rw [hunique]
    unfold Terminates
    dsimp only
    split_ifs with hkill hign hdfl hchld
    · simp [hkill]
    · have hnot : sigIgn ≠ sigDfl := by decide
      simp [hkill, hign, hnot]
    · have hnot : sigchld ≠ sigkill := by decide
      simp [hchld, hnot]
    · simp [hkill, hdfl, hchld]
    · simp [hkill, hdfl]

theorem reach_ring (hfatal : ∀ p ∈ dead, Fatal p.2) (hsafe : ¬ Fatal b.2)
    (hring : Ring k (dead ++ b :: rest)) (hcur : k.currentTask = headOf (dead ++ b :: rest))
    (hfuel : (dead ++ b :: rest).length ≤ fuel) (hj : Loop.Reach (signalBody fuel) k j) :
    ∃ front behind, dead = front ++ behind ∧ Ring j (behind ++ b :: rest) ∧
      j.currentTask = headOf (behind ++ b :: rest) := by
  induction hj with
  | refl => exact ⟨[], dead, rfl, hring, hcur⟩
  | tail _ hbody ih =>
    obtain ⟨front, behind, rfl, hring', hcur'⟩ := ih
    cases behind with
    | nil =>
      obtain ⟨k', hleave, -⟩ := signalBody_leave fuel hring' hcur' hsafe
      cases hbody.symm.trans hleave
    | cons p behind =>
      obtain ⟨k', hagain, hnext, hhead, -⟩ := signalBody_again (a := p.1) (t := p.2) hring' hcur'
        (hfatal p (by simp)) (by simp)
        (show (behind ++ b :: rest).length < fuel by
          simp only [length_append, length_cons] at hfuel ⊢
          omega)
      cases hbody.symm.trans hagain
      exact ⟨front ++ [p], behind, by simp, hnext, hhead⟩

theorem Considered.le {m : Nat} (hj : Considered m k j) (hle : m ≤ fuel) : Considered fuel k j := by
  obtain ⟨cur, ⟨first, hfollow, hskip⟩, hreach⟩ := hj
  refine ⟨cur, ⟨first, hfollow, Loop.run_le (fun _ _ hbody => hbody) hskip hle⟩, ?_⟩
  exact Relation.ReflTransGen.mono (fun _ _ hbody => signalBody_le hbody hle) _ _ hreach

theorem Considered.mem (h : Healthy kt k r) (hr : Upcoming k r) (hl : Lineup r zs dead b rest)
    (hj : Considered fuel k j) {n : Node} (hnode : j.node j.currentTask = .ok n) :
    (j.currentTask, n.task) ∈ dead ++ [b] := by
  have hj' := hj.le (le_max_left fuel (r.length + 1))
  have hfuel : r.length < max fuel (r.length + 1) := by omega
  obtain ⟨k₁, -, hcur, hring, hsame, ⟨first', hfollow', hskip'⟩, -⟩ := switch_spec h hr hl hfuel
  obtain ⟨cur, ⟨first, hfollow, hskip⟩, hreach⟩ := hj'
  cases hfollow.symm.trans hfollow'
  obtain rfl : k₁.currentTask = cur := by simpa using hskip'.symm.trans hskip
  rw [← hsame] at hreach
  have hsize : (dead ++ b :: (rest ++ zs)).length ≤ max fuel (r.length + 1) := by
    rw [hl.eq] at hfuel ⊢
    simp only [length_append, length_cons] at hfuel ⊢
    omega
  obtain ⟨front, behind, rfl, hringj, hcurj⟩ := reach_ring hl.fatal hl.safe hring hcur hsize hreach
  rw [hcurj] at hnode ⊢
  cases behind with
  | nil =>
    obtain ⟨m, hnode'⟩ := hringj.node
    cases hnode.symm.trans hnode'
    simp
  | cons p behind =>
    obtain ⟨m, hnode'⟩ := Ring.node (a := p.1) (t := p.2) hringj
    cases hnode.symm.trans hnode'
    simp

theorem considered_not_resumed_iff (h : Healthy kt k r) (hr : Upcoming k r)
    (hfuel : r.length < fuel) (hj : Considered fuel k j) {n : Node} (hnode : j.node j.currentTask = .ok n) :
    (∃ k', taskSwitch fuel k = .ok k' ∧ k'.currentTask ≠ j.currentTask) ↔ Fatal n.task := by
  obtain ⟨zs, dead, b, rest, hl⟩ := exists_lineup h.exists_safe
  obtain ⟨k₁, k', -, hring, -, -, hrun, hdone⟩ := switch_spec h hr hl hfuel
  have hswitch : (∃ k', taskSwitch fuel k = .ok k' ∧ k'.currentTask ≠ j.currentTask) ↔
      b.1 ≠ j.currentTask := by
    rw [← hdone.currentTask]
    refine ⟨fun ⟨k'', hrun', hne⟩ => ?_, fun hne => ⟨k', hrun, hne⟩⟩
    cases hrun.symm.trans hrun'
    exact hne
  rw [hswitch]
  rcases mem_append.mp (hj.mem h hr hl hnode) with hdead | hlast
  · refine iff_of_true (fun heq => ?_) (hl.fatal _ hdead)
    have hnodup := hring.nodup
    rw [map_append, nodup_append] at hnodup
    exact hnodup.2.2 _ (mem_map_of_mem hdead) b.1 (by simp) heq.symm
  · obtain rfl := mem_singleton.mp hlast
    exact iff_of_false (fun hne => hne rfl) hl.safe

/-- A task with a terminating signal is not resumed by the switch that looks at it exactly if the
lowest of its signals terminates. -/
theorem doomed_not_resumed_iff (hboot : Booted kt k₀) (hk : SwitchState kt k₀ k) :
    ∃ m, ∀ fuel, m ≤ fuel → ∀ j n, Considered fuel k j → j.node j.currentTask = .ok n →
      ((Doomed n.task → ∃ k', taskSwitch fuel k = .ok k' ∧ k'.currentTask ≠ j.currentTask) ↔
        (Doomed n.task → DoomedFirst n.task)) := by
  obtain ⟨r, hr, h⟩ := hk.upcoming hboot
  refine ⟨r.length + 1, fun fuel hfuel j n hj hnode => forall_congr' fun _ => ?_⟩
  rw [considered_not_resumed_iff h hr hfuel hj hnode, fatal_iff]

def firstLook (k : Kernel) : Option (Nat × Task × Nat) :=
  match following k k.currentTask with
  | .ok first =>
    match Loop.run .spinning (skipBody k k.currentTask) 20 first with
    | .ok cur =>
      match k.nodes cur, taskSwitch 20 k with
      | some n, .ok k' => some (cur, n.task, k'.currentTask)
      | _, _ => none
    | .error _ => none
  | .error _ => none

theorem firstLook_eq {cur next : Nat} (h : firstLook k = some (cur, t, next)) (hfuel : 20 ≤ fuel) :
    Considered fuel k { k with currentTask := cur } ∧
      (∃ n, k.node cur = .ok { task := t, next := n }) ∧
      ∃ k', taskSwitch fuel k = .ok k' ∧ k'.currentTask = next := by
  unfold firstLook at h
  split at h
  · next first hfollow =>
      split at h
      · next hskip =>
          split at h
          · next n k' hnode hrun =>
              cases h
              refine ⟨⟨_, ⟨first, hfollow, Loop.run_le (fun _ _ hbody => hbody) hskip hfuel⟩,
                .refl⟩, ⟨n.next, ?_⟩, k', taskSwitch_le hrun hfuel, rfl⟩
              unfold Kernel.node
              rw [hnode]
          · cases h
      · cases h
  · cases h

/-- Task 2 has `SIGKILL` pending, and init goes on alone. -/
theorem doomed_not_resumed_trial : ∃ k₀ k j n, Booted 640 k₀ ∧ SwitchState 640 k₀ k ∧
    j.node j.currentTask = .ok n ∧ Doomed n.task ∧ ∃ fuel, Considered fuel k j ∧
      ∃ k', taskSwitch fuel k = .ok k' ∧ k'.currentTask ≠ j.currentTask := by
  obtain ⟨k₀, es, k, hboot, hrun, hcheck⟩ := passes_run
    (show passes [.spawn 101 700, .kill 2 9]
      (fun x => (firstLook x.2.2).any fun y =>
        y.2.1.signalPending == 0x200 && y.2.1.signalBlocked == 0) = true by decide +kernel)
  obtain ⟨⟨cur, t, next⟩, hlook, hsignals⟩ := (any_eq_true _ _).mp hcheck
  obtain ⟨hpending, hblocked⟩ : t.signalPending = 0x200 ∧ t.signalBlocked = 0 := by
    simpa using hsignals
  have hk : SwitchState 640 k₀ k := ⟨es, k, hrun, .inl rfl⟩
  obtain ⟨m, hiff⟩ := doomed_not_resumed_iff hboot hk
  obtain ⟨hlooks, ⟨n, hnode⟩, -⟩ := firstLook_eq hlook (le_max_right m 20)
  have hkill : Deliverable t 9 := by
    unfold Deliverable
    rw [hpending, hblocked]
    decide
  have hlow : ∀ i, i < 9 → ¬ Deliverable t i := by
    unfold Deliverable
    rw [hpending, hblocked]
    decide
  have hdoomed : Doomed t := ⟨9, hkill, .inl rfl⟩
  exact ⟨k₀, k, _, _, hboot, hk, hnode, hdoomed, _, hlooks,
    (hiff _ (le_max_left _ _) _ _ hlooks hnode).mpr (fun _ => ⟨9, hkill, hlow, .inl rfl⟩) hdoomed⟩

/-- Task 2 ignores signal 2; it has that pending beside `SIGKILL`, and it is resumed. -/
theorem doomed_resumed : ¬ ∀ k₀ k, Booted 640 k₀ → SwitchState 640 k₀ k →
    ∃ m, ∀ fuel, m ≤ fuel → ∀ j n, Considered fuel k j → j.node j.currentTask = .ok n →
      Doomed n.task → ∃ k', taskSwitch fuel k = .ok k' ∧ k'.currentTask ≠ j.currentTask := by
  intro hclaim
  obtain ⟨k₀, es, k, hboot, hrun, hcheck⟩ := passes_run
    (show passes [.spawn 101 700, .switch, .signal 2 1, .switch, .kill 2 2, .kill 2 9]
      (fun x => (firstLook x.2.2).any fun y =>
        y.2.1.signalPending == 0x204 && y.2.1.signalBlocked == 0 && y.2.2 == y.1) = true by
      decide +kernel)
  obtain ⟨⟨cur, t, next⟩, hlook, hsignals⟩ := (any_eq_true _ _).mp hcheck
  obtain ⟨⟨hpending, hblocked⟩, rfl⟩ :
      (t.signalPending = 0x204 ∧ t.signalBlocked = 0) ∧ next = cur := by simpa using hsignals
  obtain ⟨m, hresumes⟩ := hclaim k₀ k hboot ⟨es, k, hrun, .inl rfl⟩
  obtain ⟨hlooks, ⟨n, hnode⟩, k', hrun', hnext⟩ := firstLook_eq hlook (le_max_right m 20)
  have hkill : Deliverable t 9 := by
    unfold Deliverable
    rw [hpending, hblocked]
    decide
  obtain ⟨k'', hrun'', hne⟩ := hresumes _ (le_max_left _ _) _ _ hlooks hnode ⟨9, hkill, .inl rfl⟩
  cases hrun'.symm.trans hrun''
  exact hne hnext

end Fatal

end JexOs.Tasks
