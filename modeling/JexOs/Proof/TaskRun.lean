import JexOs.Proof.TaskHealth

/-!
# Runs of the task system

The calls of `task.c` in any order, with the rest of the kernel free to change memory in between as long as it
leaves the kernel-stack table alone.
-/

namespace JexOs.Tasks

open Paging (Machine)
open Kstack List Function

inductive Call where
  | fork (g : Grant)
  | kernelFork (g : Grant)
  | exit (code : Int)
  | waitpid (pid : Int) (status : Bool)
  | switch
  | kill (pid sig : Int)
  | signal (sig : Int) (handler : Nat)
  /-- Whatever else is done to memory. -/
  | memory (m : Machine)

def Call.run (fuel : Nat) (k : Kernel) : Call → Result (Option Waited × Kernel)
  | .fork g => (Tasks.fork fuel k g).map fun r => (none, r.2)
  | .kernelFork g => (Tasks.kernelFork fuel k g).map fun r => (none, r.2)
  | .exit code => (taskExit fuel k code).map fun k => (none, k)
  | .waitpid pid status => (Tasks.waitpid fuel k pid status).map fun r => (some r.1, r.2)
  | .switch => (taskSwitch fuel k).map fun k => (none, k)
  | .kill pid sig => (sysKill fuel k pid sig).map fun r => (none, r.2)
  | .signal sig handler => (sysSignal k sig handler).map fun r => (none, r.2)
  | .memory m => .ok (none, { k with machine := m })

/-- What the parts of the kernel that are left out may answer and do. -/
def Call.Allowed (kt : Nat) (k : Kernel) : Call → Prop
  | .fork g => Granted kt k g
  | .kernelFork g => Granted kt k g
  | .memory m => KeepsTable kt k.machine m
  | _ => True

structure Event where
  before : Kernel
  call : Call
  answer : Option Waited
  after : Kernel

def Event.Happens (kt : Nat) (e : Event) : Prop :=
  e.call.Allowed kt e.before ∧ ∃ fuel, e.call.run fuel e.before = .ok (e.answer, e.after)

inductive Run (kt : Nat) (k₀ : Kernel) : List Event → Kernel → Prop where
  | nil : Run kt k₀ [] k₀
  | snoc {es : List Event} {e : Event} : Run kt k₀ es e.before → e.Happens kt →
      Run kt k₀ (es ++ [e]) e.after

/-- The state `init_tasking` leaves, on a machine with an intact stack table. -/
def Booted (kt : Nat) (k : Kernel) : Prop :=
  ∃ m kd a, StackTable m kt ∧ m.dir = kd ∧ a ≠ 0 ∧ initTasking m kd a = .ok k

section Steps

open Loop (bind_eq_ok)

variable {kt fuel n : Nat} {k k₀ k' : Kernel} {q : List Entry} {c : Call} {e : Event}
  {es : List Event} {w : Option Waited}

theorem map_eq_ok {α β : Type} {x : Result α} {f : α → β}
    {b : β} : x.map f = .ok b ↔ ∃ a, x = .ok a ∧ f a = b := by
  cases x with
  | error e =>
    refine ⟨fun h => ?_, fun ⟨a, h, _⟩ => ?_⟩
    · cases h
    · cases h
  | ok a => simp [Except.map]

theorem Call.run_le (h : c.run n k = .ok (w, k')) (hle : n ≤ fuel) : c.run fuel k = .ok (w, k') := by
  cases c with
  | fork g =>
    obtain ⟨r, hr, heq⟩ := map_eq_ok.mp h
    exact map_eq_ok.mpr ⟨r, fork_le hr hle, heq⟩
  | kernelFork g =>
    obtain ⟨r, hr, heq⟩ := map_eq_ok.mp h
    exact map_eq_ok.mpr ⟨r, kernelFork_le hr hle, heq⟩
  | exit code =>
    obtain ⟨r, hr, heq⟩ := map_eq_ok.mp h
    exact map_eq_ok.mpr ⟨r, taskExit_le hr hle, heq⟩
  | waitpid pid status =>
    obtain ⟨r, hr, heq⟩ := map_eq_ok.mp h
    exact map_eq_ok.mpr ⟨r, waitpid_le hr hle, heq⟩
  | switch =>
    obtain ⟨r, hr, heq⟩ := map_eq_ok.mp h
    exact map_eq_ok.mpr ⟨r, taskSwitch_le hr hle, heq⟩
  | kill pid sig =>
    obtain ⟨r, hr, heq⟩ := map_eq_ok.mp h
    exact map_eq_ok.mpr ⟨r, sysKill_le hr hle, heq⟩
  | signal sig handler => exact h
  | memory m => exact h

theorem Event.Happens.ample (h : e.Happens kt) (n : Nat) :
    ∃ fuel, n < fuel ∧ e.call.run fuel e.before = .ok (e.answer, e.after) := by
  obtain ⟨-, fuel, hrun⟩ := h
  exact ⟨max fuel (n + 1), by omega, Call.run_le hrun (le_max_left _ _)⟩

theorem booted_healthy (h : Booted kt k) :
    ∃ p, Queued k [p] ∧ Healthy kt k [p] ∧ p.2.state = .running ∧ k.nextPid = 2 ∧
      ∀ a, a ≠ p.1 → k.nodes a = none := by
  obtain ⟨m, kd, a, htable, rfl, hnull, hinit⟩ := h
  obtain ⟨kstack, m', halloc, hplace, hkeeps⟩ :=
    allocKernelStack_spec m.dir htable (show 1 ≤ 1 by decide) (by decide)
  unfold initTasking at hinit
  rw [halloc] at hinit
  cases hinit
  refine ⟨(a, initTask (m.dir * 4096) kstack),
    { seg := ⟨rfl, 0, show Function.update (fun _ => none) a (some _) a = some _ from
        update_self .., rfl⟩
      nodup := by simp
      nonnull := by simpa using hnull },
    { current := ⟨_, mem_cons_self, rfl⟩
      ids := by simp
      bound := by simp [initTask]
      init := ⟨_, mem_cons_self, rfl, by simp [initTask], rfl⟩
      parents := by simp [initTask]
      placed := by simpa [Placed, initTask] using hplace
      sees := by simpa [initTask] using hkeeps.sees _ htable.dir
      kernel := hkeeps.sees _ htable.dir
      table := hkeeps.table
      count := by simp }, rfl, rfl, fun b hb =>
        show Function.update (fun _ => none) a (some _) b = none from update_of_ne hb ..⟩

theorem Healthy.exists_safe (h : Healthy kt k q) : ∃ p ∈ q, p.2.state ≠ .zombie ∧ ¬ Fatal p.2 := by
  obtain ⟨p, hp, -, hlive, hnone⟩ := h.init
  exact ⟨p, hp, hlive, not_fatal_of_none hnone⟩

theorem Ring.queued {r : List Entry} (h : Ring k r) : ∃ q, Queued k q ∧ r.Perm q := by
  obtain ⟨pre, post, hq, rfl⟩ := h
  exact ⟨_, hq, perm_append_comm⟩

inductive Change (kt : Nat) (e : Event) (q q' : List Entry) : Prop where
  | fork (g : Grant) (call : e.call = .fork g ∨ e.call = .kernelFork g) (answer : e.answer = none)
      (fresh : g.child = 0 ∨ e.before.nodes g.child = none)
      (done : Forked kt e.before e.after g q q')
  | stay (code : Int) (call : e.call = .exit code) (answer : e.answer = none)
      (init : ∃ t, (e.before.currentTask, t) ∈ q ∧ t.id = 1) (after : e.after = e.before)
      (same : q' = q)
  | exit (code : Int) (others : List Entry) (t : Task) (k₁ : Kernel) (zs dead : List Entry)
      (b : Entry) (rest : List Entry) (call : e.call = .exit code) (answer : e.answer = none)
      (upcoming : Upcoming e.before (others ++ [(e.before.currentTask, t)])) (init : t.id ≠ 1)
      (dying : ∃ fuel, dying fuel e.before code = .ok k₁)
      (ready : Upcoming k₁ (exitLine e.before.currentTask t code others))
      (nextPid : k₁.nextPid = e.before.nextPid)
      (other : ∀ a, (∀ p ∈ q, p.1 ≠ a) → k₁.nodes a = e.before.nodes a)
      (lineup : Lineup (exitLine e.before.currentTask t code others) zs dead b rest)
      (done : Switched kt k₁ e.after dead b (rest ++ zs))
      (perm : ((b.1, delivered b.2) :: (rest ++ zs)).Perm q')
  | look (pid : Int) (status : Bool) (w : Waited) (call : e.call = .waitpid pid status)
      (answer : e.answer = some w) (kind : w = .again ∨ w = .echild)
      (none : ∃ s, (e.before.currentTask, s) ∈ q ∧ ∀ p ∈ q, ¬ Wanted s.id pid p.2)
      (after : e.after = e.before) (same : q' = q)
  | reap (pid : Int) (status : Bool) (s : Task) (pre : List Entry) (a : Nat) (t : Task)
      (post : List Entry) (call : e.call = .waitpid pid status)
      (answer : e.answer = some (.reaped t.id (if status then some t.exitCode else none)))
      (self : (e.before.currentTask, s) ∈ q) (queue : q = pre ++ (a, t) :: post)
      (wanted : Wanted s.id pid t) (kept : q' = (pre ++ post).filter fun p => ¬ Swept s.id p.2)
      (done : Reaped kt e.before e.after q ((a, t) :: (pre ++ post).filter fun p => Swept s.id p.2))
  | switch (r zs dead : List Entry) (b : Entry) (rest : List Entry) (call : e.call = .switch)
      (answer : e.answer = none) (upcoming : Upcoming e.before r)
      (lineup : Lineup r zs dead b rest) (done : Switched kt e.before e.after dead b (rest ++ zs))
      (perm : ((b.1, delivered b.2) :: (rest ++ zs)).Perm q')
  | signals (call : (∃ pid sig, e.call = .kill pid sig) ∨ ∃ sig handler, e.call = .signal sig handler)
      (answer : e.answer = none) (done : Rewritten kt e.before e.after q q')
  | memory (m : Machine) (call : e.call = .memory m) (answer : e.answer = none)
      (after : e.after = { e.before with machine := m }) (same : q' = q)

def Call.IsFork (c : Call) : Prop := ∃ g, c = .fork g ∨ c = .kernelFork g

section Total

variable (hq : Queued k q) (h : Healthy kt k q) (hfuel : q.length < fuel)

include hq h hfuel

theorem switch_total : ∃ k' q', taskSwitch fuel k = .ok k' ∧ Queued k' q' ∧ Healthy kt k' q' ∧
      Change kt { before := k, call := .switch, answer := none, after := k' } q q' := by
  obtain ⟨r, hr, hperm⟩ := exists_upcoming hq h
  have hr' := h.perm hperm.symm
  obtain ⟨zs, dead, b, rest, hl⟩ := exists_lineup hr'.exists_safe
  obtain ⟨-, k', -, -, -, -, hrun, hdone⟩ :=
    switch_spec hr' hr hl (show r.length < fuel by rw [hperm.length_eq]; exact hfuel)
  obtain ⟨q', hq', hperm'⟩ := hdone.ring.queued
  exact ⟨k', q', hrun, hq', hdone.healthy.perm hperm', .switch r zs dead b rest rfl rfl hr hl hdone hperm'⟩

theorem exit_total (code : Int) : ∃ k' q', taskExit fuel k code = .ok k' ∧ Queued k' q' ∧ Healthy kt k' q' ∧
      Change kt { before := k, call := .exit code, answer := none, after := k' } q q' := by
  obtain ⟨l, hl, hlq⟩ := exists_upcoming hq h
  obtain ⟨⟨a, t⟩, others, rfl, hring, hcur⟩ := hl
  obtain rfl : a = k.currentTask := hcur.symm
  obtain ⟨n, hnode⟩ := hring.node
  by_cases hinit : t.id = 1
  · refine ⟨k, q, ?_, hq, h, .stay code rfl rfl ⟨t, hlq.mem_iff.mp (by simp), hinit⟩ rfl rfl⟩
    unfold taskExit
    rw [hnode]
    change (if t.id = 1 then _ else _) = _
    rw [if_pos hinit]
    rfl
  · have hr : Upcoming k (others ++ [(k.currentTask, t)]) := ⟨_, _, rfl, hring, rfl⟩
    have hlen := (hr.perm hq).length_eq
    obtain ⟨k₁, hdying, hexit, hr₁, h₁, -, hpid, hother⟩ := exit_spec code hq h hr hinit hfuel
    obtain ⟨zs, dead, b, rest, hl⟩ := exists_lineup h₁.exists_safe
    have hlen' : (exitLine k.currentTask t code others).length = q.length := by
      rw [← hlen]
      unfold exitLine
      simp
    obtain ⟨-, k', -, -, -, -, hrun, hdone⟩ := switch_spec h₁ hr₁ hl (show _ < fuel by rw [hlen']; exact hfuel)
    obtain ⟨q', hq', hperm'⟩ := hdone.ring.queued
    exact ⟨k', q', hexit.trans hrun, hq', hdone.healthy.perm hperm',
      .exit code others t k₁ zs dead b rest rfl rfl hr hinit ⟨fuel, hdying⟩ hr₁ hpid hother hl
        hdone hperm'⟩

theorem wait_total (pid : Int) (status : Bool) :
    ∃ w k' q', waitpid fuel k pid status = .ok (w, k') ∧ Queued k' q' ∧ Healthy kt k' q' ∧
      Change kt { before := k, call := .waitpid pid status, answer := some w, after := k' } q q' := by
  obtain ⟨s, n, hs, -⟩ := h.currentNode hq
  obtain ⟨w, hkind, hnone, hwait⟩ | ⟨pre, a, t, post, k', heq, hwanted, hwait, hq', h', hdone⟩ :=
    wait_spec pid status hq h hs hfuel
  · exact ⟨w, k, q, hwait, hq, h, .look pid status w rfl rfl hkind ⟨s, hs, hnone⟩ rfl rfl⟩
  · exact ⟨_, k', _, hwait, hq', h', .reap pid status s pre a t post rfl rfl hs heq hwanted rfl hdone⟩

/-- Every call returns and keeps the invariant; only a fork with no pid left for its stack faults. -/
theorem Call.total (hc : c.Allowed kt k) :
    (∃ w k' q', c.run fuel k = .ok (w, k') ∧ Queued k' q' ∧ Healthy kt k' q' ∧
      Change kt { before := k, call := c, answer := w, after := k' } q q') ∨
      c.IsFork ∧ k.nextPid = 256 ∧ c.run fuel k = .error .pageFault := by
  cases c with
  | fork g =>
    obtain ⟨r, k', q', hfork, hdone⟩ | ⟨hlast, -, -, hfault⟩ := fork_spec hq h hc hfuel.le
    · exact .inl ⟨_, k', q', map_eq_ok.mpr ⟨_, hfork, rfl⟩, hdone.queued, hdone.healthy,
        .fork g (.inl rfl) rfl hc.fresh hdone⟩
    · refine .inr ⟨⟨g, .inl rfl⟩, hlast, ?_⟩
      change (Tasks.fork fuel k g).map _ = _
      rw [hfault]
      rfl
  | kernelFork g =>
    obtain ⟨r, k', q', hfork, hdone⟩ | ⟨hlast, -, -, hfault⟩ := kernelFork_spec hq h hc hfuel.le
    · exact .inl ⟨_, k', q', map_eq_ok.mpr ⟨_, hfork, rfl⟩, hdone.queued, hdone.healthy,
        .fork g (.inr rfl) rfl hc.fresh hdone⟩
    · refine .inr ⟨⟨g, .inr rfl⟩, hlast, ?_⟩
      change (Tasks.kernelFork fuel k g).map _ = _
      rw [hfault]
      rfl
  | exit code =>
    obtain ⟨k', q', hexit, hdone⟩ := exit_total hq h hfuel code
    exact .inl ⟨_, k', q', map_eq_ok.mpr ⟨_, hexit, rfl⟩, hdone⟩
  | waitpid pid status =>
    obtain ⟨w, k', q', hwait, hdone⟩ := wait_total hq h hfuel pid status
    exact .inl ⟨_, k', q', map_eq_ok.mpr ⟨_, hwait, rfl⟩, hdone⟩
  | switch =>
    obtain ⟨k', q', hswitch, hdone⟩ := switch_total hq h hfuel
    exact .inl ⟨_, k', q', map_eq_ok.mpr ⟨_, hswitch, rfl⟩, hdone⟩
  | kill pid sig =>
    obtain ⟨r', k', q', hkill, hdone⟩ := kill_spec hq h pid sig hfuel
    exact .inl ⟨_, k', q', map_eq_ok.mpr ⟨_, hkill, rfl⟩, hdone.queued, hdone.healthy,
      .signals (.inl ⟨pid, sig, rfl⟩) rfl hdone⟩
  | signal sig handler =>
    obtain ⟨r', k', q', hsignal, hdone⟩ := signal_spec hq h sig handler
    exact .inl ⟨_, k', q', map_eq_ok.mpr ⟨_, hsignal, rfl⟩, hdone.queued, hdone.healthy,
      .signals (.inr ⟨sig, handler, rfl⟩) rfl hdone⟩
  | memory m =>
    exact .inl ⟨none, _, q, rfl, hq.congr rfl fun _ _ => rfl, h.memory hc, .memory m rfl rfl rfl rfl⟩

end Total

/-- A fork that gets its memory, and goes on to ask for a kernel stack. -/
def Event.StackFork (e : Event) : Prop :=
  ∃ g, (e.call = .fork g ∨ e.call = .kernelFork g) ∧ g.child ≠ 0 ∧ g.newDir ≠ 0

theorem Change.nextPid {q' : List Entry} (hc : Change kt e q q') : e.after.nextPid = e.before.nextPid ∨
      e.StackFork ∧ e.after.nextPid = e.before.nextPid + 1 := by
  cases hc with
  | fork g hcall _ _ hdone =>
    by_cases hfail : g.child = 0 ∨ g.newDir = 0
    · exact .inl (hdone.nextPid.trans (if_pos hfail))
    · have hgot : g.child ≠ 0 ∧ g.newDir ≠ 0 := not_or.mp hfail
      exact .inr ⟨⟨g, hcall, hgot⟩, hdone.nextPid.trans (pidAfter_granted hgot.1 hgot.2)⟩
  | stay _ _ _ _ hafter _ => exact .inl (congrArg Kernel.nextPid hafter)
  | exit _ _ _ _ _ _ _ _ _ _ _ _ _ _ hpid _ _ hdone _ => exact .inl (hdone.nextPid.trans hpid)
  | look _ _ _ _ _ _ _ hafter _ => exact .inl (congrArg Kernel.nextPid hafter)
  | reap _ _ _ _ _ _ _ _ _ _ _ _ _ hdone => exact .inl hdone.nextPid
  | switch _ _ _ _ _ _ _ _ _ hdone _ => exact .inl hdone.nextPid
  | signals _ _ hdone => exact .inl hdone.nextPid
  | memory _ _ _ hafter _ =>
    rw [hafter]
    exact .inl rfl

theorem Change.nextPid_le {q' : List Entry} (hc : Change kt e q q') : e.before.nextPid ≤ e.after.nextPid := by
  obtain heq | ⟨-, heq⟩ := hc.nextPid
  · exact heq.ge
  · exact heq ▸ Nat.le_succ _

theorem Event.Happens.change (he : e.Happens kt) (hq : Queued e.before q) (h : Healthy kt e.before q) :
    ∃ q', Queued e.after q' ∧ Healthy kt e.after q' ∧ Change kt e q q' := by
  obtain ⟨fuel, hfuel, hrun⟩ := he.ample q.length
  obtain ⟨w, k', q', hok, hdone⟩ | ⟨-, -, hfault⟩ := Call.total hq h hfuel he.1
  · cases hrun.symm.trans hok
    exact ⟨q', hdone⟩
  · cases hrun.symm.trans hfault

theorem Run.healthy (hboot : Booted kt k₀) (hrun : Run kt k₀ es k) : ∃ q, Queued k q ∧ Healthy kt k q := by
  induction hrun with
  | nil =>
    obtain ⟨p, hq, h, -⟩ := booted_healthy hboot
    exact ⟨[p], hq, h⟩
  | snoc _ he ih =>
    obtain ⟨q, hq, h⟩ := ih
    obtain ⟨q', hq', h', -⟩ := he.change hq h
    exact ⟨q', hq', h'⟩

end Steps

/-- A step of a test run. A fork gets the structure at `child` and a directory in frame `d` that is
a clone as far as the stack table goes. -/
inductive Move where
  | spawn (child d : Nat)
  | exit (code : Int)
  | waitpid (pid : Int) (status : Bool)
  | switch
  | kill (pid sig : Int)
  | signal (sig : Int) (handler : Nat)

def cloneInto (kt d : Nat) (m : Machine) : Machine :=
  (m.set d 1022 (Paging.entryFor (d * 4096) 3)).set d 1023 (Paging.entryFor (kt * 4096) 3)

def Move.call (kt : Nat) (k : Kernel) : Move → Call
  | .spawn child d =>
    .fork
      { child := child
        newDir := d * 4096
        machine := cloneInto kt d k.machine }
  | .exit code => .exit code
  | .waitpid pid status => .waitpid pid status
  | .switch => .switch
  | .kill pid sig => .kill pid sig
  | .signal sig handler => .signal sig handler

def Move.ready (kt : Nat) (k : Kernel) : Move → Bool
  | .spawn child d => (k.nodes child).isNone && d != kt
  | _ => true

def exec (fuel kt : Nat) : Kernel → List Move → Result (List Event × Kernel)
  | k, [] => .ok ([], k)
  | k, c :: cs => do
      if c.ready kt k then
        let (answer, after) ← (c.call kt k).run fuel k
        let (es, last) ← exec fuel kt after cs
        return ({ before := k, call := c.call kt k, answer := answer, after := after } :: es, last)
      else
        .error .panicked

section Exec

open Loop (bind_eq_ok)

variable {kt fuel d : Nat} {k k₀ k' : Kernel} {m : Machine} {c : Move} {cs : List Move}
  {es : List Event}

theorem cloneInto_word (hd : d ≠ kt) (f w : Nat) : (cloneInto kt d m).phys f w =
      if f = d ∧ w = 1023 then Paging.entryFor (kt * 4096) 3
      else if f = d ∧ w = 1022 then Paging.entryFor (d * 4096) 3
      else m.phys f w := by
  unfold cloneInto Machine.set
  by_cases hf : f = d
  · subst hf
    by_cases hw : w = 1023
    · simp [hw]
    · by_cases hw' : w = 1022
      · simp [hw']
      · simp [hw, hw']
  · simp [hf]

theorem sees_cloneInto (hd : d ≠ kt) : Sees (cloneInto kt d m) kt d :=
  { apart := hd
    window := by simp [cloneInto_word hd]
    table := by simp [cloneInto_word hd] }

theorem keeps_cloneInto (h : StackTable m kt) (hd : d ≠ kt) : KeepsTable kt m (cloneInto kt d m) := by
  have hsees : ∀ x, Sees m kt x → Sees (cloneInto kt d m) kt x := by
    intro x hx
    by_cases heq : x = d
    · subst heq
      exact sees_cloneInto hd
    · refine ⟨hx.apart, ?_, ?_⟩
      · simp [cloneInto_word hd, heq, hx.window]
      · simp [cloneInto_word hd, heq, hx.table]
  refine ⟨rfl, ⟨h.active, hsees _ h.dir, ?_, fun j hlow hhigh => ?_⟩, hsees⟩
  · simp [cloneInto_word hd, h.self]
  · simpa [cloneInto_word hd, Ne.symm hd] using h.gap j hlow hhigh

theorem Move.allowed (h : StackTable k.machine kt) (hready : c.ready kt k = true) :
    (c.call kt k).Allowed kt k := by
  cases c with
  | spawn child d =>
    obtain ⟨hnone, hd⟩ : k.nodes child = none ∧ d ≠ kt := by simpa [Move.ready] using hready
    refine ⟨.inr hnone, keeps_cloneInto h hd, fun _ => ?_⟩
    rw [Nat.mul_div_cancel _ (by decide : 0 < 4096)]
    exact sees_cloneInto hd
  | exit code => trivial
  | waitpid pid status => trivial
  | switch => trivial
  | kill pid sig => trivial
  | signal sig handler => trivial

theorem exec_run {es' : List Event} (hboot : Booted kt k₀) (hrun : Run kt k₀ es k)
    (h : exec fuel kt k cs = .ok (es', k')) : Run kt k₀ (es ++ es') k' := by
  induction cs generalizing k es es' with
  | nil =>
    cases h
    simpa using hrun
  | cons c cs ih =>
    unfold exec at h
    split at h
    · next hready =>
        obtain ⟨⟨answer, after⟩, hcall, hrest⟩ := bind_eq_ok.mp h
        obtain ⟨⟨tail, last⟩, htail, hend⟩ := bind_eq_ok.mp hrest
        cases hend
        obtain ⟨q, -, hhealthy⟩ := hrun.healthy hboot
        have hnext := Run.snoc
          (e := { before := k, call := c.call kt k, answer := answer, after := after }) hrun
          ⟨Move.allowed hhealthy.table hready, fuel, hcall⟩
        simpa using ih hnext htail
    · cases h

end Exec

def listFrom (k : Kernel) : Nat → Nat → List Entry
  | 0, _ => []
  | fuel + 1, a =>
    if a = 0 then []
    else
      match k.nodes a with
      | some n => (a, n.task) :: listFrom k fuel n.next
      | none => []

def queue (k : Kernel) : List Entry := listFrom k 20 k.readyQueue

theorem listFrom_eq {k : Kernel} {q : List Entry} {a fuel : Nat} (hseg : Linked.Seg k.Cell a q 0)
    (hnonnull : ∀ p ∈ q, p.1 ≠ 0) : listFrom k fuel a = q.take fuel := by
  induction q generalizing a fuel with
  | nil =>
    obtain rfl : a = 0 := hseg
    cases fuel with
    | zero => rfl
    | succ fuel => simp [listFrom]
  | cons p q ih =>
    cases fuel with
    | zero => rfl
    | succ fuel =>
      obtain ⟨rfl, next, hcell, htail⟩ := hseg
      have hnode : k.nodes p.1 = some { task := p.2, next := next } := hcell
      rw [listFrom, if_neg (hnonnull p (by simp)), hnode, take_succ_cons,
        ← ih htail fun x hx => hnonnull x (by simp [hx])]

theorem queue_eq {k : Kernel} {q : List Entry} (hq : Queued k q) (hlen : (queue k).length < 20) :
    q = queue k := by
  have hlist : queue k = q.take 20 := listFrom_eq hq.seg hq.nonnull
  rw [hlist] at hlen ⊢
  rw [length_take] at hlen
  exact (take_of_length_le (by omega)).symm

/-- Directory 300 and stack table 640, as `init_paging` leaves them; the kernel holds the frames
below 648. -/
def smallMachine : Machine :=
  { phys := fun f w =>
      if f = 300 ∧ w = 1022 then Paging.entryFor (300 * 4096) 3
      else if f = 300 ∧ w = 1023 then Paging.entryFor (640 * 4096) 3
      else if f = 640 ∧ w = 0 then Paging.entryFor (640 * 4096) 3
      else 0
    pmm :=
      { bitmap := fun i => if i < 81 then 0xFF else 0
        usedBlocks := 648 }
    dir := 300
    active := true }

theorem smallMachine_table : StackTable smallMachine 640 :=
  { active := rfl
    dir := ⟨by decide, rfl, rfl⟩
    self := rfl
    gap := fun j hlow hhigh => by
      have hzero : smallMachine.phys 640 j = 0 := by
        simp [smallMachine, Nat.ne_of_gt hlow]
      rw [hzero]
      decide }

def smallBoot : Result Kernel := initTasking smallMachine 300 100

theorem booted_small {k : Kernel} (h : smallBoot = .ok k) : Booted 640 k :=
  ⟨smallMachine, 300, 100, smallMachine_table, rfl, by decide, h⟩

def trial (cs : List Move) : Result (Kernel × List Event × Kernel) := do
  let k₀ ← smallBoot
  let (es, k) ← exec 20 640 k₀ cs
  return (k₀, es, k)

theorem trial_run {cs : List Move} {k₀ k : Kernel} {es : List Event}
    (h : trial cs = .ok (k₀, es, k)) : Booted 640 k₀ ∧ Run 640 k₀ es k := by
  obtain ⟨x, hboot, hrest⟩ := Loop.bind_eq_ok.mp h
  obtain ⟨⟨y, z⟩, hexec, hend⟩ := Loop.bind_eq_ok.mp hrest
  cases hend
  have hbooted := booted_small hboot
  exact ⟨hbooted, by simpa using exec_run hbooted Run.nil hexec⟩

def passes (cs : List Move) (P : Kernel × List Event × Kernel → Bool) : Bool :=
  match trial cs with
  | .ok x => P x
  | .error _ => false

theorem passes_run {cs : List Move} {P : Kernel × List Event × Kernel → Bool} (h : passes cs P = true) :
    ∃ k₀ es k, Booted 640 k₀ ∧ Run 640 k₀ es k ∧ P (k₀, es, k) = true := by
  unfold passes at h
  split at h
  · next x hrun =>
      obtain ⟨k₀, es, k⟩ := x
      obtain ⟨hboot, hrun⟩ := trial_run hrun
      exact ⟨k₀, es, k, hboot, hrun, h⟩
  · cases h

end JexOs.Tasks
