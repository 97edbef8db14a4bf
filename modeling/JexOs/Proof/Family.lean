import JexOs.Proof.Scheduler

/-!
# Parents and children

A task that exits gives its children to init and stays in the queue until it is reaped; a task that a
signal terminates does neither.
-/

namespace JexOs.Tasks

open Kstack List

def Event.AtSwitch (e : Event) (k : Kernel) : Prop :=
  match e.call with
  | .switch => k = e.before
  | .exit code => ∃ fuel n, e.before.node e.before.currentTask = .ok n ∧ n.task.id ≠ 1 ∧
      dying fuel e.before code = .ok k
  | _ => False

/-- `deliver_signals` terminates the task `t` at address `a` during the call. -/
def Event.Ends (e : Event) (a : Nat) (t : Task) : Prop :=
  ∃ k fuel j n, e.AtSwitch k ∧ Considered fuel k j ∧ j.currentTask = a ∧ j.node a = .ok n ∧
    n.task = t ∧ Fatal t

def CalmLine (r : List Entry) : Prop :=
  ∀ zs x rest, r = zs ++ x :: rest → (∀ p ∈ zs, p.2.state = .zombie) → x.2.state ≠ .zombie →
    ¬ Fatal x.2

def Event.Calm (e : Event) : Prop := ∀ k r, e.AtSwitch k → Upcoming k r → CalmLine r

def Kin (q : List Entry) : Prop :=
  ∀ p ∈ q, p.2.id ≠ 1 → ∃ p' ∈ q, p'.2.id = p.2.parentPid ∧ p'.2.state ≠ .zombie

/-- From the switch that terminated it on, a task is in the queue as a zombie, until a `waitpid`
frees it. -/
def StaysUntilReaped (es : List Event) : Prop :=
  ∀ es₁ e es₂ es₃, es = es₁ ++ e :: (es₂ ++ es₃) → ∀ a t, e.Ends a t →
    (∃ q t', Queued (es₂.getLast?.getD e).after q ∧ (a, t') ∈ q ∧ t'.id = t.id ∧
      t'.state = .zombie) ∨
    ∃ e' ∈ es₂, (∃ pid status, e'.call = .waitpid pid status) ∧ e'.after.nodes a = none

section Switching

variable {kt : Nat} {k k₀ : Kernel} {e : Event} {es : List Event}
  {q r zs dead rest : List Entry} {b : Entry}

theorem Lineup.calm_iff (hl : Lineup r zs dead b rest) : CalmLine r ↔ dead = [] := by
  constructor
  · intro hcalm
    cases dead with
    | nil => rfl
    | cons x dead =>
      exact absurd (hl.fatal x mem_cons_self) (hcalm zs x (dead ++ b :: rest) hl.eq hl.zombie (hl.live x rfl))
  · rintro rfl zs' x rest' heq hzs hx
    obtain ⟨-, rfl, -⟩ := first_unique (hl.eq.symm.trans heq) hl.zombie (hl.live b rfl) hzs hx
    exact hl.safe

theorem Run.upTo (hrun : Run kt k₀ es k) (he : e ∈ es) :
    ∃ es', Run kt k₀ es' e.before ∧ e.Happens kt ∧ ∀ x ∈ es', x ∈ es := by
  induction hrun with
  | nil => cases he
  | snoc hprev hlast ih =>
    rcases mem_append.mp he with he | he
    · obtain ⟨es', hrun', hhappens, hsub⟩ := ih he
      exact ⟨es', hrun', hhappens, fun x hx => mem_append_left _ (hsub x hx)⟩
    · obtain rfl := mem_singleton.mp he
      exact ⟨_, hprev, hlast, fun x hx => mem_append_left _ hx⟩

theorem Event.AtSwitch.state (hrun : Run kt k₀ es e.before) (hk : e.AtSwitch k) : SwitchState kt k₀ k := by
  unfold Event.AtSwitch at hk
  split at hk
  · exact ⟨es, e.before, hrun, .inl hk⟩
  · obtain ⟨fuel, n, hnode, hid, hdying⟩ := hk
    exact ⟨es, e.before, hrun, .inr ⟨fuel, _, n, hnode, hid, hdying⟩⟩
  · exact hk.elim

theorem Event.AtSwitch.switches (he : e.Happens kt) (hk : e.AtSwitch k) :
    ∃ m, taskSwitch m k = .ok e.after := by
  obtain ⟨-, fuel, hrun⟩ := he
  unfold Event.AtSwitch at hk
  split at hk
  · next hcall =>
      rw [hcall] at hrun
      obtain ⟨k', hswitch, heq⟩ := map_eq_ok.mp hrun
      obtain ⟨-, rfl⟩ := Prod.mk.inj heq
      exact ⟨fuel, hk ▸ hswitch⟩
  · next code hcall =>
      obtain ⟨m, n, hnode, hid, hdying⟩ := hk
      rw [hcall] at hrun
      obtain ⟨k', hexit, heq⟩ := map_eq_ok.mp hrun
      obtain ⟨-, rfl⟩ := Prod.mk.inj heq
      have hexit' := taskExit_le hexit (le_max_left fuel m)
      rw [taskExit_eq (t := n.task) code hnode hid, dying_le hdying (le_max_right fuel m)] at hexit'
      exact ⟨_, hexit'⟩
  · exact hk.elim

theorem Event.AtSwitch.lineup (hboot : Booted kt k₀) (hrun : Run kt k₀ es e.before)
    (he : e.Happens kt) (hk : e.AtSwitch k) (hr : Upcoming k r) :
    ∃ zs dead b rest, Healthy kt k r ∧ Lineup r zs dead b rest ∧
    Switched kt k e.after dead b (rest ++ zs) := by
  obtain ⟨r', hr', h'⟩ := (hk.state hrun).upcoming hboot
  obtain ⟨q, hq, hperm⟩ := hr'.queued
  have h := h'.perm (hperm.trans (hr.perm hq).symm)
  obtain ⟨zs, dead, b, rest, hl⟩ := exists_lineup h.exists_safe
  obtain ⟨m, hswitch⟩ := hk.switches he
  obtain ⟨-, k', -, -, -, -, hrun', hdone⟩ :=
    switch_spec h hr hl (show r.length < max m (r.length + 1) by omega)
  cases (taskSwitch_le hswitch (le_max_left _ _)).symm.trans hrun'
  exact ⟨zs, dead, b, rest, h, hl, hdone⟩

theorem Event.calm_iff (hboot : Booted kt k₀) (hrun : Run kt k₀ es e.before) (he : e.Happens kt) :
    e.Calm ↔ ∀ a t, ¬ e.Ends a t := by
  constructor
  · rintro hcalm a t ⟨k, fuel, j, n, hk, hj, rfl, hnode, rfl, hfatal⟩
    obtain ⟨r, hr, -⟩ := (hk.state hrun).upcoming hboot
    obtain ⟨zs, dead, b, rest, h, hl, -⟩ := hk.lineup hboot hrun he hr
    obtain rfl := hl.calm_iff.mp (hcalm k r hk hr)
    have hmem := hj.mem h hr hl hnode
    obtain rfl := mem_singleton.mp hmem
    exact hl.safe hfatal
  · intro hnone k r hk hr
    obtain ⟨zs, dead, b, rest, h, hl, -⟩ := hk.lineup hboot hrun he hr
    rw [hl.calm_iff]
    cases dead with
    | nil => rfl
    | cons x dead =>
      obtain ⟨k₁, -, hcur, hring, hsame, hskips, -⟩ := switch_spec h hr hl (Nat.lt_succ_self _)
      obtain ⟨n, hnode⟩ := Ring.node (a := x.1) (t := x.2) hring
      refine absurd ?_ (hnone x.1 x.2)
      exact ⟨k, _, k₁, _, hk, ⟨_, hskips, hsame ▸ .refl⟩, hcur, hnode, rfl, hl.fatal x mem_cons_self⟩

theorem Event.Ends.gone (hboot : Booted kt k₀) (hrun : Run kt k₀ es e.before) (he : e.Happens kt)
    {a : Nat} {t : Task} (hends : e.Ends a t) (hq : Queued e.after q) : ∀ p ∈ q, p.1 ≠ a := by
  obtain ⟨k, fuel, j, n, hk, hj, rfl, hnode, rfl, hfatal⟩ := hends
  obtain ⟨r, hr, -⟩ := (hk.state hrun).upcoming hboot
  obtain ⟨zs, dead, b, rest, h, hl, hdone⟩ := hk.lineup hboot hrun he hr
  obtain ⟨k₁, -, -, hring, -⟩ := switch_spec h hr hl (Nat.lt_succ_self _)
  have hdead : (j.currentTask, n.task) ∈ dead := by
    rcases mem_append.mp (hj.mem h hr hl hnode) with hdead | hlast
    · exact hdead
    · obtain rfl := mem_singleton.mp hlast
      exact absurd hfatal hl.safe
  obtain ⟨q', hq', hperm⟩ := hdone.ring.queued
  obtain rfl := hq.unique hq'
  intro p hp heq
  have hnodup := hring.nodup
  rw [map_append, nodup_append] at hnodup
  refine hnodup.2.2 _ (mem_map_of_mem hdead) p.1 ?_ heq.symm
  rcases mem_cons.mp (hperm.mem_iff.mpr hp) with rfl | hp
  · simp
  · exact mem_map_of_mem (mem_cons_of_mem _ hp)

end Switching

def Call.Plain : Call → Prop
  | .kill _ _ => False
  | .signal _ _ => False
  | _ => True

instance (c : Call) : Decidable c.Plain :=
  match c with
  | .fork _ => isTrue trivial
  | .kernelFork _ => isTrue trivial
  | .exit _ => isTrue trivial
  | .waitpid _ _ => isTrue trivial
  | .switch => isTrue trivial
  | .kill _ _ => isFalse id
  | .signal _ _ => isFalse id
  | .memory _ => isTrue trivial

def Quiet (q : List Entry) : Prop := ∀ p ∈ q, p.2.signalPending = 0

section Quiet

variable {kt : Nat} {k k₀ : Kernel} {e : Event} {es : List Event}
  {q q' r zs dead rest : List Entry} {b : Entry}

theorem delivered_of_quiet {t : Task} (hnone : t.signalPending = 0) : delivered t = t := by
  unfold delivered deliverSignals
  rw [hnone]
  simp

theorem Lineup.quiet (hl : Lineup r zs dead b rest) (hquiet : Quiet r) : dead = [] ∧ delivered b.2 = b.2 := by
  have hmem : ∀ p ∈ dead ++ b :: rest, p ∈ r := by
    intro p hp
    rw [hl.eq]
    exact mem_append_right _ hp
  refine ⟨?_, delivered_of_quiet (hquiet b (hmem b (by simp)))⟩
  cases dead with
  | nil => rfl
  | cons x dead =>
    exact absurd (hl.fatal x mem_cons_self) (not_fatal_of_none (hquiet x (hmem x (by simp))))

theorem Quiet.exitLine {others : List Entry} {c : Nat} {t : Task} (code : Int)
    (h : Quiet (others ++ [(c, t)])) : Quiet (exitLine c t code others) := by
  intro p hp
  unfold Tasks.exitLine at hp
  rcases mem_append.mp hp with hp | hp
  · obtain ⟨x, hx, rfl⟩ := mem_map.mp hp
    have hquiet := h x (mem_append_left _ hx)
    unfold reparent
    dsimp only
    split
    · exact hquiet
    · exact hquiet
  · obtain rfl := mem_singleton.mp hp
    exact h (c, t) (by simp)

theorem Lineup.turn (hl : Lineup r zs dead b rest) (hquiet : Quiet r)
    (hperm : ((b.1, delivered b.2) :: (rest ++ zs)).Perm q') : r.Perm q' := by
  obtain ⟨rfl, hsame⟩ := hl.quiet hquiet
  rw [hsame] at hperm
  refine List.Perm.trans ?_ hperm
  rw [hl.eq, nil_append]
  exact perm_append_comm

theorem Change.quiet (hc : Change kt e q q') (hq : Queued e.before q) (hplain : e.call.Plain)
    (hquiet : Quiet q) : Quiet q' := by
  cases hc with
  | fork g _ _ _ hdone =>
    obtain rfl | ⟨parent, kstack, -, rfl⟩ := hdone.tasks
    · exact hquiet
    · intro p hp
      rcases mem_append.mp hp with hp | hp
      · exact hquiet p hp
      · obtain rfl := mem_singleton.mp hp
        rfl
  | stay _ _ _ _ _ hsame => exact hsame ▸ hquiet
  | exit code others t k₁ zs dead b rest _ _ hr _ _ _ _ _ hl _ hperm =>
    have hline : Quiet (exitLine e.before.currentTask t code others) :=
      Quiet.exitLine code fun p hp => hquiet p ((hr.perm hq).mem_iff.mp hp)
    exact fun p hp => hline p ((hl.turn hline hperm).mem_iff.mpr hp)
  | look _ _ _ _ _ _ _ _ hsame => exact hsame ▸ hquiet
  | reap pid status s pre a t post _ _ _ heq _ hkept _ =>
    intro p hp
    subst hkept heq
    exact hquiet p (perm_middle.mem_iff.mpr (mem_cons_of_mem _ (mem_filter.mp hp).1))
  | switch r zs dead b rest _ _ hr hl _ hperm =>
    have hline : Quiet r := fun p hp => hquiet p ((hr.perm hq).mem_iff.mp hp)
    exact fun p hp => hline p ((hl.turn hline hperm).mem_iff.mpr hp)
  | signals hcall _ _ =>
    obtain ⟨pid, sig, hcall⟩ | ⟨sig, handler, hcall⟩ := hcall
    · rw [hcall] at hplain
      exact hplain.elim
    · rw [hcall] at hplain
      exact hplain.elim
  | memory _ _ _ _ hsame => exact hsame ▸ hquiet

theorem Event.calm_of_quiet (hq : Queued e.before q) (h : Healthy kt e.before q)
    (hquiet : Quiet q) : e.Calm := by
  intro k r hk hr
  have hline : Quiet r := by
    unfold Event.AtSwitch at hk
    split at hk
    · subst hk
      exact fun p hp => hquiet p ((hr.perm hq).mem_iff.mp hp)
    · next code _ =>
        obtain ⟨fuel, n, hnode, hid, hdying⟩ := hk
        obtain ⟨l, hl, -⟩ := exists_upcoming hq h
        obtain ⟨⟨a, t⟩, others, rfl, hring, hcur⟩ := hl
        obtain rfl : a = e.before.currentTask := hcur.symm
        obtain ⟨m, hnode'⟩ := hring.node
        cases hnode.symm.trans hnode'
        have hr₀ : Upcoming e.before (others ++ [(e.before.currentTask, t)]) := ⟨_, _, rfl, hring, rfl⟩
        obtain ⟨k', hdying', -, hr', -⟩ := exit_spec code hq h hr₀ hid
          (show q.length < max fuel (q.length + 1) by omega)
        cases (dying_le hdying (le_max_left _ _)).symm.trans hdying'
        obtain ⟨q₁, hq₁, hperm⟩ := hr'.queued
        have hexit := Quiet.exitLine code fun p hp => hquiet p ((hr₀.perm hq).mem_iff.mp hp)
        exact fun p hp => hexit p (hperm.mem_iff.mpr ((hr.perm hq₁).mem_iff.mp hp))
    · exact hk.elim
  intro zs x rest heq _ _
  exact not_fatal_of_none (hline x (by rw [heq]; simp))

theorem Run.quiet (hboot : Booted kt k₀) (hrun : Run kt k₀ es k) (hplain : ∀ e ∈ es, e.call.Plain) :
    (∃ q, Queued k q ∧ Healthy kt k q ∧ Quiet q) ∧ ∀ e ∈ es, e.Calm := by
  induction hrun with
  | nil =>
    obtain ⟨p, hq, h, -⟩ := booted_healthy hboot
    obtain ⟨i, hi, -, -, hnone⟩ := h.init
    obtain rfl := mem_singleton.mp hi
    refine ⟨⟨_, hq, h, fun x hx => ?_⟩, by simp⟩
    obtain rfl := mem_singleton.mp hx
    exact hnone
  | @snoc es e hprev he ih =>
    obtain ⟨⟨q, hq, h, hquiet⟩, hcalm⟩ := ih fun e he => hplain e (mem_append_left _ he)
    obtain ⟨q', hq', h', hchange⟩ := he.change hq h
    refine ⟨⟨q', hq', h', hchange.quiet hq (hplain e (by simp)) hquiet⟩, fun x hx => ?_⟩
    rcases mem_append.mp hx with hx | hx
    · exact hcalm x hx
    · obtain rfl := mem_singleton.mp hx
      exact Event.calm_of_quiet hq h hquiet

end Quiet

structure Family (k : Kernel) (q : List Entry) : Prop where
  live : ∀ p ∈ q, p.1 = k.currentTask → p.2.state ≠ .zombie
  kin : Kin q

section Parents

variable {kt : Nat} {k k' k₀ : Kernel} {e : Event} {es : List Event}
  {q q' r zs rest : List Entry} {b : Entry}

theorem Kin.perm (h : Kin q) (hperm : q.Perm q') : Kin q' := by
  intro p hp hid
  obtain ⟨p', hp', hparent⟩ := h p (hperm.mem_iff.mpr hp) hid
  exact ⟨p', hperm.mem_iff.mp hp', hparent⟩

theorem Kin.head (t' : Task) (h : Kin (b :: rest)) (hid : t'.id = b.2.id)
    (hparent : t'.parentPid = b.2.parentPid) (hstate : t'.state = b.2.state) : Kin ((b.1, t') :: rest) := by
  intro p hp hne
  have hold : ∃ x ∈ b :: rest, x.2.id = p.2.id ∧ x.2.parentPid = p.2.parentPid := by
    rcases mem_cons.mp hp with rfl | hp
    · exact ⟨b, mem_cons_self, hid.symm, hparent.symm⟩
    · exact ⟨p, mem_cons_of_mem _ hp, rfl, rfl⟩
  obtain ⟨x, hx, hxid, hxparent⟩ := hold
  obtain ⟨p', hp', heq, hlive⟩ := h x hx (hxid ▸ hne)
  rcases mem_cons.mp hp' with rfl | hp'
  · exact ⟨_, mem_cons_self, hid.trans (heq.trans hxparent), hstate ▸ hlive⟩
  · exact ⟨p', mem_cons_of_mem _ hp', heq.trans hxparent, hlive⟩

theorem Kin.switched (h : Kin r) (hl : Lineup r zs [] b rest) (hdone : Switched kt k k' [] b (rest ++ zs))
    (hperm : ((b.1, delivered b.2) :: (rest ++ zs)).Perm q') : Family k' q' := by
  have hstate := delivered_state hl.safe
  have hrest : r.Perm (b :: (rest ++ zs)) := by
    rw [hl.eq, nil_append]
    exact perm_append_comm
  have hkin : Kin ((b.1, delivered b.2) :: (rest ++ zs)) :=
    (h.perm hrest).head _ (by rw [delivered_eq]) (by rw [delivered_eq]) hstate
  refine ⟨fun p hp hcur => ?_, hkin.perm hperm⟩
  have hnodup := hdone.ring.nodup
  rw [map_cons, nodup_cons] at hnodup
  rcases mem_cons.mp (hperm.mem_iff.mpr hp) with rfl | hp
  · rw [hstate]
    exact hl.live b rfl
  · refine absurd (mem_map.mpr ⟨p, hp, ?_⟩) hnodup.1
    exact hcur.trans hdone.currentTask

theorem Kin.exitLine {others : List Entry} {c : Nat} {t : Task} (code : Int)
    (h : Kin (others ++ [(c, t)])) (hself : t.parentPid ≠ t.id)
    (hinit : ∃ p ∈ others, p.2.id = 1 ∧ p.2.state ≠ .zombie) : Kin (exitLine c t code others) := by
  unfold Tasks.exitLine
  -- a live parent that is not the one that exits is still there
  have hstay : ∀ p ∈ others ++ [(c, t)], p.2.id ≠ 1 → p.2.parentPid ≠ t.id →
      ∃ p' ∈ others.map (reparent t.id), p'.2.id = p.2.parentPid ∧ p'.2.state ≠ .zombie := by
    intro p hp hid hne
    obtain ⟨p', hp', hparent, hlive⟩ := h p hp hid
    rcases mem_append.mp hp' with hp' | hp'
    · refine ⟨reparent t.id p', mem_map_of_mem hp', ?_⟩
      unfold reparent
      dsimp only
      split
      · exact ⟨hparent, hlive⟩
      · exact ⟨hparent, hlive⟩
    · obtain rfl := mem_singleton.mp hp'
      exact absurd hparent.symm hne
  intro p hp hid
  rcases mem_append.mp hp with hp | hp
  · obtain ⟨x, hx, rfl⟩ := mem_map.mp hp
    by_cases hchild : x.2.parentPid = t.id
    · obtain ⟨i, hi, hone, hlive⟩ := hinit
      refine ⟨reparent t.id i, mem_append_left _ (mem_map_of_mem hi), ?_⟩
      unfold reparent
      dsimp only
      rw [if_pos hchild]
      split
      · exact ⟨hone, hlive⟩
      · exact ⟨hone, hlive⟩
    · have hsame : reparent t.id x = x := by
        unfold reparent
        rw [if_neg hchild]
      rw [hsame] at hid ⊢
      obtain ⟨p', hp', hparent⟩ := hstay x (mem_append_left _ hx) hid hchild
      exact ⟨p', mem_append_left _ hp', hparent⟩
  · obtain rfl := mem_singleton.mp hp
    obtain ⟨p', hp', hparent⟩ := hstay (c, t) (by simp) hid hself
    exact ⟨p', mem_append_left _ hp', hparent⟩

theorem Kin.snoc {p : Entry} (h : Kin q)
    (hparent : ∃ p' ∈ q, p'.2.id = p.2.parentPid ∧ p'.2.state ≠ .zombie) : Kin (q ++ [p]) := by
  intro x hx hid
  have hold : ∃ p' ∈ q, p'.2.id = x.2.parentPid ∧ p'.2.state ≠ .zombie := by
    rcases mem_append.mp hx with hx | hx
    · exact h x hx hid
    · obtain rfl := mem_singleton.mp hx
      exact hparent
  obtain ⟨p', hp', hp⟩ := hold
  exact ⟨p', mem_append_left _ hp', hp⟩

theorem Kin.sublist (h : Kin q) (hsub : q'.Sublist q)
    (hdead : ∀ p ∈ q, p.2.state ≠ .zombie → p ∈ q') : Kin q' := by
  intro p hp hid
  obtain ⟨p', hp', hparent, hlive⟩ := h p (hsub.subset hp) hid
  exact ⟨p', hdead p' hp' hlive, hparent, hlive⟩

theorem Family.forked {g : Grant} (h : Family k q) (hdone : Forked kt k k' g q q') : Family k' q' := by
  obtain rfl | ⟨parent, kstack, hparent, rfl⟩ := hdone.tasks
  · exact ⟨fun p hp hcur => h.live p hp (hcur.trans hdone.currentTask), h.kin⟩
  · refine ⟨fun p hp hcur => ?_, h.kin.snoc ⟨_, hparent, rfl, h.live _ hparent rfl⟩⟩
    rcases mem_append.mp hp with hp | hp
    · exact h.live p hp (hcur.trans hdone.currentTask)
    · obtain rfl := mem_singleton.mp hp
      exact TaskState.noConfusion

theorem Family.rewritten (h : Family k q) (hdone : Rewritten kt k k' q q') : Family k' q' := by
  obtain rfl | ⟨pre, a, t, t', post, rfl, rfl, pending, handlers, rfl⟩ := hdone.tasks
  · exact ⟨fun p hp hcur => h.live p hp (hcur.trans hdone.currentTask), h.kin⟩
  · have hperm : (pre ++ (a, t) :: post).Perm ((a, t) :: (pre ++ post)) := perm_middle
    refine ⟨fun p hp hcur => ?_, ?_⟩
    · rcases mem_cons.mp (perm_middle.mem_iff.mp hp) with rfl | hp
      · exact h.live (a, t) (by simp) (hcur.trans hdone.currentTask)
      · exact h.live p (hperm.mem_iff.mpr (mem_cons_of_mem _ hp)) (hcur.trans hdone.currentTask)
    · refine Kin.perm (Kin.head _ (h.kin.perm hperm) ?_ ?_ ?_) perm_middle.symm
      · rfl
      · rfl
      · rfl

theorem Family.step (h : Family e.before q) (hq : Queued e.before q) (hhealthy : Healthy kt e.before q)
    (hc : Change kt e q q') (hcalm : e.Calm) : Family e.after q' := by
  cases hc with
  | fork g _ _ _ hdone => exact h.forked hdone
  | stay _ _ _ _ hafter hsame =>
    rw [hafter, hsame]
    exact h
  | exit code others t k₁ zs dead b rest hcall _ hr hinit hdying hr₁ _ _ hl hdone hperm =>
    have hpermr := hr.perm hq
    have hself := hhealthy.parents _ (hpermr.mem_iff.mp (by simp : (e.before.currentTask, t) ∈ _))
    obtain ⟨m, hdying⟩ := hdying
    obtain ⟨c, rest', heq, hring, -⟩ := id hr
    obtain ⟨-, hlast⟩ := append_inj' heq rfl
    obtain rfl : (e.before.currentTask, t) = c := by simpa using hlast
    obtain ⟨n, hnode⟩ := hring.node
    have hat : e.AtSwitch k₁ := by
      unfold Event.AtSwitch
      rw [hcall]
      exact ⟨m, _, hnode, hinit, hdying⟩
    obtain rfl := hl.calm_iff.mp (hcalm k₁ _ hat hr₁)
    obtain ⟨i, hi, hone, hlive, -⟩ := hhealthy.init
    have hi' : i ∈ others := by
      rcases mem_append.mp (hpermr.mem_iff.mpr hi) with hi | hi
      · exact hi
      · obtain rfl := mem_singleton.mp hi
        exact absurd hone hinit
    exact ((h.kin.perm hpermr.symm).exitLine code hself.ne ⟨i, hi', hone,
      hlive⟩).switched hl hdone hperm
  | look _ _ _ _ _ _ _ hafter hsame =>
    rw [hafter, hsame]
    exact h
  | reap pid status s pre a t post _ _ hs heq hwanted hkept hdone =>
    subst hkept heq
    refine ⟨fun p hp hcur => ?_, ?_⟩
    · have hmem : p ∈ pre ++ post := (mem_filter.mp hp).1
      refine h.live p ?_ (hcur.trans hdone.currentTask)
      exact perm_middle.mem_iff.mpr (mem_cons_of_mem _ hmem)
    · refine h.kin.sublist (filter_sublist.trans
        ((sublist_cons_self _ _).append_left pre)) fun p hp hlive => ?_
      refine mem_filter.mpr ⟨?_, by simpa using fun hswept : Swept s.id p.2 => hlive hswept.1⟩
      rcases mem_cons.mp (perm_middle.mem_iff.mp hp) with rfl | hp
      · exact absurd hwanted.1 hlive
      · exact hp
  | switch r zs dead b rest hcall _ hr hl hdone hperm =>
    have hat : e.AtSwitch e.before := by
      unfold Event.AtSwitch
      rw [hcall]
    obtain rfl := hl.calm_iff.mp (hcalm _ _ hat hr)
    exact (h.kin.perm (hr.perm hq).symm).switched hl hdone hperm
  | signals _ _ hdone => exact h.rewritten hdone
  | memory m _ _ hafter hsame =>
    rw [hafter, hsame]
    exact ⟨h.live, h.kin⟩

theorem booted_family (hboot : Booted kt k) : ∃ p, Queued k [p] ∧ Healthy kt k [p] ∧ Family k [p] := by
  obtain ⟨p, hq, h, hrunning, -⟩ := booted_healthy hboot
  obtain ⟨i, hi, hone, -⟩ := h.init
  obtain rfl := mem_singleton.mp hi
  refine ⟨_, hq, h, fun x hx _ => ?_, fun x hx hid => ?_⟩
  · obtain rfl := mem_singleton.mp hx
    rw [hrunning]
    decide
  · obtain rfl := mem_singleton.mp hx
    exact absurd hone hid

theorem Run.family (hboot : Booted kt k₀) (hrun : Run kt k₀ es k) (hcalm : ∀ e ∈ es, e.Calm) :
    ∃ q, Queued k q ∧ Healthy kt k q ∧ Family k q := by
  induction hrun with
  | nil =>
    obtain ⟨p, hp⟩ := booted_family hboot
    exact ⟨[p], hp⟩
  | snoc hprev he ih =>
    obtain ⟨q, hq, h, hfamily⟩ := ih fun e he => hcalm e (mem_append_left _ he)
    obtain ⟨q', hq', h', hchange⟩ := he.change hq h
    exact ⟨q', hq', h', hfamily.step hq h hchange (hcalm _ (by simp))⟩

/-- Death by a signal is like `_task_exit` in a run exactly if no switch of it terminates a task. -/
theorem signal_refines_exit_iff (hboot : Booted kt k₀) (hrun : Run kt k₀ es k) :
    (StaysUntilReaped es ∧ ∃ q, Queued k q ∧ Kin q) ↔ ∀ e ∈ es, e.Calm := by
  constructor
  · rintro ⟨hstays, -⟩ e he
    obtain ⟨es', hrun', hhappens, -⟩ := hrun.upTo he
    rw [Event.calm_iff hboot hrun' hhappens]
    intro a t hends
    obtain ⟨es₁, es₃, rfl⟩ := append_of_mem he
    obtain ⟨q, t', hq, hmem, -⟩ | ⟨e', he', -⟩ := hstays es₁ e [] es₃ rfl a t hends
    · exact hends.gone hboot hrun' hhappens hq _ hmem rfl
    · cases he'
  · intro hcalm
    obtain ⟨q, hq, -, hfamily⟩ := hrun.family hboot hcalm
    refine ⟨fun es₁ e es₂ es₃ heq a t hends => ?_, q, hq, hfamily.kin⟩
    have he : e ∈ es := by
      rw [heq]
      simp
    obtain ⟨es', hrun', hhappens, -⟩ := hrun.upTo he
    exact absurd hends ((Event.calm_iff hboot hrun' hhappens).mp (hcalm e he) a t)

/-- A child exits and is reaped, all without signals. -/
theorem signal_refines_exit_trial : ∃ k₀ es k, Booted 640 k₀ ∧ Run 640 k₀ es k ∧ es.length = 4 ∧
    StaysUntilReaped es ∧ ∃ q, Queued k q ∧ Kin q := by
  obtain ⟨k₀, es, k, hboot, hrun, hcheck⟩ := passes_run
    (show passes [.spawn 101 700, .switch, .exit 7, .waitpid 2 true]
      (fun x => x.2.1.length == 4 && x.2.1.all fun e => e.call.Plain) = true by decide +kernel)
  obtain ⟨hlen, hplain⟩ : es.length = 4 ∧ ∀ e ∈ es, e.call.Plain := by simpa using hcheck
  obtain ⟨-, hcalm⟩ := hrun.quiet hboot hplain
  exact ⟨k₀, es, k, hboot, hrun, hlen, (signal_refines_exit_iff hboot hrun).mpr hcalm⟩

/-- Task 2 is killed, and its child, task 3, keeps it as its parent. -/
theorem signal_leaves_orphans : ¬ ∀ k₀ es k, Booted 640 k₀ → Run 640 k₀ es k →
    StaysUntilReaped es ∧ ∃ q, Queued k q ∧ Kin q := by
  intro hclaim
  obtain ⟨k₀, es, k, hboot, hrun, hcheck⟩ := passes_run
    (show passes [.spawn 101 700, .switch, .spawn 102 701, .switch, .switch, .kill 2 9, .switch]
      (fun x => decide ((queue x.2.2).length < 20) && (queue x.2.2).any fun p => p.2.id != 1 &&
        (queue x.2.2).all fun p' => p'.2.id != p.2.parentPid) = true by decide +kernel)
  obtain ⟨-, q, hq, hkin⟩ := hclaim k₀ es k hboot hrun
  obtain ⟨hlen, a, t, hp, hid, hgone⟩ : (queue k).length < 20 ∧ ∃ a t, (a, t) ∈ queue k ∧
      t.id ≠ 1 ∧ ∀ a' t', (a', t') ∈ queue k → t'.id ≠ t.parentPid := by simpa using hcheck
  rw [← queue_eq hq hlen] at hp hgone
  obtain ⟨p', hp', hparent, -⟩ := hkin (a, t) hp hid
  exact hgone p'.1 p'.2 hp' hparent

end Parents

end JexOs.Tasks
