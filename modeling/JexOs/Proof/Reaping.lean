import JexOs.Proof.Family

/-!
# Exit codes

The call that reaps a child also sweeps every other zombie child of the caller, and their codes are lost; so is
the code of a zombie whose parent exits.
-/

namespace JexOs.Tasks

open Kstack List Option

/-- A `waitpid` that reaps stores the code, and its caller has no other zombie child; a task that
exits has none at all. -/
def Event.Orderly (e : Event) : Prop :=
  ∀ q s, Queued e.before q → (e.before.currentTask, s) ∈ q →
    match e.call with
    | .waitpid pid status => ∀ p ∈ q, Wanted s.id pid p.2 → status = true ∧
        ∀ p' ∈ q, p'.2.state = .zombie → p'.2.parentPid = s.id → p' = p
    | .exit _ => s.id ≠ 1 → ∀ p ∈ q, p.2.state = .zombie → p.2.parentPid ≠ s.id
    | _ => True

def Event.Exits (e : Event) (pid parent : Nat) (code : Int) : Prop :=
  e.call = .exit code ∧ ∃ n, e.before.node e.before.currentTask = .ok n ∧ n.task.id = pid ∧
    n.task.parentPid = parent ∧ pid ≠ 1

def Event.report (e : Event) : Option (Nat × Nat × Option Int) :=
  match e.answer, e.before.nodes e.before.currentTask with
  | some (.reaped pid code), some n => some (n.task.id, pid, code)
  | _, _ => none

def reportsOf (es : List Event) (pid : Nat) : List (Nat × Nat × Option Int) :=
  (es.filterMap Event.report).filter fun r => r.2.1 = pid

/-- Every structure the call frees is that of the child it reports, to the parent. -/
def Event.Accounts (e : Event) : Prop :=
  ∀ a n, a ≠ 0 → e.before.nodes a = some n → e.after.nodes a = none →
    e.report = some (n.task.parentPid, n.task.id, some n.task.exitCode)

/-- Every code of a child that exits is still in its structure, or its parent was told once. -/
def NeverLost (es : List Event) (k : Kernel) : Prop :=
  (∀ e ∈ es, e.Accounts) ∧
    ∀ e ∈ es, ∀ pid parent code, e.Exits pid parent code →
      reportsOf es pid = [(parent, pid, some code)] ∨
      reportsOf es pid = [] ∧ ∃ q t a, Queued k q ∧ (a, t) ∈ q ∧ t.id = pid ∧
        t.state = .zombie ∧ t.exitCode = code

section Freed

variable {kt : Nat} {e : Event} {q q' : List Entry} {a : Nat} {n : Node}

theorem Queued.some_of_mem {k : Kernel} (hq : Queued k q) (hmem : ∃ p ∈ q, p.1 = a) : k.nodes a ≠ none := by
  obtain ⟨p, hp, rfl⟩ := hmem
  obtain ⟨next, hcell⟩ := hq.perm_mem hp
  rw [hcell]
  exact some_ne_none _

theorem Switched.keeps {k k' : Kernel} {dead rest : List Entry} {b : Entry}
    (h : Switched kt k k' dead b rest) (hsome : k.nodes a ≠ none) : k'.nodes a ≠ none := by
  by_cases hmem : ∃ p ∈ dead ++ b :: rest, p.1 = a
  · obtain ⟨p, hp, rfl⟩ := hmem
    obtain ⟨q, hq, hperm⟩ := h.ring.queued
    rcases mem_append.mp hp with hp | hp
    · obtain ⟨next, hcell⟩ := h.unlinked p hp
      rw [hcell]
      exact some_ne_none _
    · rcases mem_cons.mp hp with rfl | hp
      · exact hq.some_of_mem ⟨_, hperm.mem_iff.mp mem_cons_self, rfl⟩
      · exact hq.some_of_mem ⟨p, hperm.mem_iff.mp (mem_cons_of_mem _ hp), rfl⟩
  · push Not at hmem
    rw [h.other a hmem]
    exact hsome

theorem Change.freed (hc : Change kt e q q') (hq : Queued e.before q) (hq' : Queued e.after q')
    (hnull : a ≠ 0) (hsome : e.before.nodes a = some n) (hnone : e.after.nodes a = none) :
    ∃ pid status s, e.call = .waitpid pid status ∧ (e.before.currentTask, s) ∈ q ∧
      (a, n.task) ∈ q ∧ n.task.state = .zombie ∧ n.task.parentPid = s.id ∧ ∃ p ∈ q, Wanted s.id pid p.2 ∧
        e.answer = some (.reaped p.2.id (if status then some p.2.exitCode else none)) := by
  have hsome' : e.before.nodes a ≠ none := by
    rw [hsome]
    exact some_ne_none _
  have hgone : ¬ ∃ p ∈ q', p.1 = a := fun hmem => hq'.some_of_mem hmem hnone
  cases hc with
  | fork g _ _ hfresh hdone =>
    exfalso
    by_cases hmem : ∃ p ∈ q, p.1 = a
    · obtain rfl | ⟨parent, kstack, -, rfl⟩ := hdone.tasks
      · exact hgone hmem
      · obtain ⟨p, hp, heq⟩ := hmem
        exact hgone ⟨p, mem_append_left _ hp, heq⟩
    · push Not at hmem
      have hne : a ≠ g.child := by
        rintro rfl
        rcases hfresh with hzero | hfresh
        · exact hnull hzero
        · exact hsome' hfresh
      exact hsome' ((hdone.other a hne hmem).symm.trans hnone)
  | stay _ _ _ _ hafter _ => exact absurd (hafter ▸ hnone) hsome'
  | exit code others t k₁ zs dead b rest _ _ hr _ _ hr₁ _ hother _ hdone _ =>
    refine absurd hnone (hdone.keeps ?_)
    by_cases hmem : ∃ p ∈ q, p.1 = a
    · obtain ⟨q₁, hq₁, hperm⟩ := hr₁.queued
      obtain ⟨p, hp, rfl⟩ := hmem
      have hline : ∃ x ∈ exitLine e.before.currentTask t code others, x.1 = p.1 := by
        rcases mem_append.mp ((hr.perm hq).mem_iff.mpr hp) with hp | hp
        · exact ⟨reparent t.id p, mem_append_left _ (mem_map_of_mem hp), rfl⟩
        · obtain rfl := mem_singleton.mp hp
          exact ⟨_, mem_append_right _ mem_cons_self, rfl⟩
      obtain ⟨x, hx, heq⟩ := hline
      exact hq₁.some_of_mem ⟨x, hperm.mem_iff.mp hx, heq⟩
    · push Not at hmem
      rw [hother a hmem]
      exact hsome'
  | look _ _ _ _ _ _ _ hafter _ => exact absurd (hafter ▸ hnone) hsome'
  | reap pid status s pre a' t post hcall hanswer hself heq hwanted hkept hdone =>
    have hmem : ∃ p ∈ q, p.1 = a := by
      by_contra hmem
      push Not at hmem
      exact hsome' ((hdone.other a hmem).symm.trans hnone)
    obtain ⟨p, hp, rfl⟩ := hmem
    obtain ⟨next, hcell⟩ := hq.perm_mem hp
    have htask : n.task = p.2 := by
      cases hsome.symm.trans hcell
      rfl
    rw [htask]
    have hchild : p.2.state = .zombie ∧ p.2.parentPid = s.id := by
      rw [heq] at hp
      rcases mem_cons.mp (perm_middle.mem_iff.mp hp) with rfl | hp
      · exact ⟨hwanted.1, hwanted.2.1⟩
      · by_contra hnot
        refine hgone ⟨p, ?_, rfl⟩
        rw [hkept]
        have hkeep : ¬ Swept s.id p.2 := fun hs => hnot ⟨hs.1, hs.2.1⟩
        exact mem_filter.mpr ⟨hp, by simpa using hkeep⟩
    refine ⟨pid, status, s, hcall, hself, hp, hchild.1, hchild.2, (a', t), ?_, hwanted, hanswer⟩
    rw [heq]
    simp
  | switch r zs dead b rest _ _ _ _ hdone _ => exact absurd hnone (hdone.keeps hsome')
  | signals _ _ hdone =>
    exfalso
    by_cases hmem : ∃ p ∈ q, p.1 = a
    · obtain rfl | ⟨pre, x, t, t', post, rfl, rfl, -⟩ := hdone.tasks
      · exact hgone hmem
      · obtain ⟨p, hp, rfl⟩ := hmem
        refine hgone ?_
        rcases mem_cons.mp (perm_middle.mem_iff.mp hp) with rfl | hp
        · exact ⟨(x, t'), by simp, rfl⟩
        · exact ⟨p, perm_middle.mem_iff.mpr (mem_cons_of_mem _ hp), rfl⟩
    · push Not at hmem
      exact hsome' ((hdone.other a hmem).symm.trans hnone)
  | memory m _ _ hafter _ =>
    rw [hafter] at hnone
    exact absurd hnone hsome'

end Freed

/-- What has been reported is of tasks that are gone, and every exit code is reported once or still
waits in the queue. -/
structure Ledger (es : List Event) (k : Kernel) (q : List Entry) : Prop where
  told : ∀ r ∈ es.filterMap Event.report, r.2.1 < k.nextPid ∧ ∀ p ∈ q, p.2.id ≠ r.2.1
  exited : ∀ e ∈ es, ∀ pid parent code, e.Exits pid parent code →
    reportsOf es pid = [(parent, pid, some code)] ∨
    reportsOf es pid = [] ∧ ∃ p ∈ q, p.2.id = pid ∧ p.2.parentPid = parent ∧
      p.2.state = .zombie ∧ p.2.exitCode = code

section Ledger

variable {kt : Nat} {k k₀ : Kernel} {e : Event} {es : List Event} {q q' : List Entry} {s : Task}

theorem reportsOf_snoc (pid : Nat) : reportsOf (es ++ [e]) pid =
      reportsOf es pid ++ (e.report.toList.filter fun r => r.2.1 = pid) := by
  unfold reportsOf
  cases hreport : e.report with
  | none => simp [hreport]
  | some r => simp [hreport]

theorem mem_reports {r : Nat × Nat × Option Int} :
    r ∈ (es ++ [e]).filterMap Event.report ↔ r ∈ es.filterMap Event.report ∨ e.report = some r := by
  simp only [filterMap_append, mem_append, mem_filterMap, mem_singleton, exists_eq_left]

theorem Queued.current_some (hq : Queued k q) (hs : (k.currentTask, s) ∈ q) :
    ∃ n, k.nodes k.currentTask = some { task := s, next := n } := hq.perm_mem hs

theorem Event.report_of_answer (hq : Queued e.before q) (hs : (e.before.currentTask, s) ∈ q)
    {pid : Nat} {code : Option Int} (hanswer : e.answer = some (.reaped pid code)) :
    e.report = some (s.id, pid, code) := by
  obtain ⟨n, hnode⟩ := hq.current_some hs
  unfold Event.report
  rw [hanswer, hnode]

theorem Event.report_of_none (hanswer : e.answer = none ∨ e.answer = some .again ∨
    e.answer = some .echild) : e.report = none := by
  unfold Event.report
  rcases hanswer with hanswer | hanswer | hanswer
  · rw [hanswer]
  · rw [hanswer]
  · rw [hanswer]

theorem Ledger.silent (h : Ledger es e.before q) (hreport : e.report = none)
    (hle : e.before.nextPid ≤ e.after.nextPid)
    (hids : ∀ p' ∈ q', (∃ p ∈ q, p.2.id = p'.2.id) ∨ e.before.nextPid ≤ p'.2.id)
    (hdead : ∀ p ∈ q, p.2.state = .zombie → p ∈ q')
    (hexits : ∀ pid parent code, e.Exits pid parent code → (∃ p ∈ q, p.2.id = pid) ∧
      ∃ p ∈ q', p.2.id = pid ∧ p.2.parentPid = parent ∧ p.2.state = .zombie ∧ p.2.exitCode = code) :
    Ledger (es ++ [e]) e.after q' := by
  have hsame : ∀ pid, reportsOf (es ++ [e]) pid = reportsOf es pid := by
    intro pid
    rw [reportsOf_snoc, hreport]
    simp
  refine ⟨fun r hr => ?_, fun x hx pid parent code hexit => ?_⟩
  · rcases mem_reports.mp hr with hr | hr
    · obtain ⟨hlt, hgone⟩ := h.told r hr
      refine ⟨by omega, fun p' hp' heq => ?_⟩
      obtain ⟨p, hp, hid⟩ | hnew := hids p' hp'
      · exact hgone p hp (hid.trans heq)
      · omega
    · rw [hreport] at hr
      cases hr
  · rw [hsame]
    rcases mem_append.mp hx with hx | hx
    · obtain hdone | ⟨hnone, p, hp, hp'⟩ := h.exited x hx pid parent code hexit
      · exact .inl hdone
      · exact .inr ⟨hnone, p, hdead p hp hp'.2.2.1, hp'⟩
    · obtain rfl := mem_singleton.mp hx
      obtain ⟨⟨p, hp, rfl⟩, hzombie⟩ := hexits pid parent code hexit
      refine .inr ⟨?_, hzombie⟩
      refine filter_eq_nil_iff.mpr fun r hr heq => ?_
      exact (h.told r hr).2 p hp (of_decide_eq_true heq).symm

theorem Ledger.reaped {pre post : List Entry} {a : Nat} {t : Task} (h : Ledger es e.before q)
    (hq : q = pre ++ (a, t) :: post) (hids : (q.map fun p => p.2.id).Nodup)
    (hbound : t.id < e.after.nextPid) (hle : e.before.nextPid ≤ e.after.nextPid)
    (hnot : ∀ pid parent code, ¬ e.Exits pid parent code)
    (hreport : e.report = some (t.parentPid, t.id, some t.exitCode)) :
    Ledger (es ++ [e]) e.after (pre ++ post) := by
  subst hq
  have hmem : (a, t) ∈ pre ++ (a, t) :: post := by simp
  have hother : ∀ p ∈ pre ++ post, p ∈ pre ++ (a, t) :: post := fun p hp =>
    perm_middle.mem_iff.mpr (mem_cons_of_mem _ hp)
  have hne : ∀ p ∈ pre ++ post, p.2.id ≠ t.id := by
    intro p hp heq
    rw [map_append, map_cons, nodup_middle, nodup_cons, ← map_append] at hids
    exact hids.1 (mem_map.mpr ⟨p, hp, heq⟩)
  refine ⟨fun r hr => ?_, fun x hx pid parent code hexit => ?_⟩
  · rcases mem_reports.mp hr with hr | hr
    · obtain ⟨hlt, hgone⟩ := h.told r hr
      exact ⟨by omega, fun p hp => hgone p (hother p hp)⟩
    · rw [hreport] at hr
      cases hr
      exact ⟨hbound, hne⟩
  · rw [reportsOf_snoc, hreport]
    rcases mem_append.mp hx with hx | hx
    · obtain hdone | ⟨hnone, p, hp, hid, hparent, hzombie, hcode⟩ := h.exited x hx pid parent code hexit
      · -- it was told before, so it is not the one reaped now
        have hpid : t.id ≠ pid := by
          have hr : (parent, pid, some code) ∈ es.filterMap Event.report := by
            have hin : (parent, pid, some code) ∈ reportsOf es pid := by
              rw [hdone]
              exact mem_singleton_self _
            exact (mem_filter.mp hin).1
          exact (h.told _ hr).2 _ hmem
        rw [hdone]
        exact .inl (by simp [hpid])
      · rw [hnone]
        rcases mem_cons.mp (perm_middle.mem_iff.mp hp) with rfl | hp
        · subst hid hparent hcode
          exact .inl (by simp)
        · have hpid : t.id ≠ pid := fun heq => hne p hp (hid.trans heq.symm)
          exact .inr ⟨by simp [hpid], p, hp, hid, hparent, hzombie, hcode⟩
    · obtain rfl := mem_singleton.mp hx
      exact absurd hexit (hnot pid parent code)

theorem Event.not_exits (hcall : ∀ code, e.call ≠ .exit code) (pid parent : Nat) (code : Int) :
    ¬ e.Exits pid parent code := fun hexit => hcall code hexit.1

theorem Ledger.step (h : Ledger es e.before q) (hq : Queued e.before q)
    (hhealthy : Healthy kt e.before q) (hfamily : Family e.before q) (hquiet : Quiet q)
    (hplain : e.call.Plain) (horder : e.Orderly) (hc : Change kt e q q') : Ledger (es ++ [e]) e.after q' := by
  have hle := hc.nextPid_le
  -- a call after which the tasks are the same
  have hturn : e.report = none → (∀ pid parent code, ¬ e.Exits pid parent code) → q.Perm q' →
      Ledger (es ++ [e]) e.after q' := by
    intro hreport hnot hperm
    exact h.silent hreport hle (fun p' hp' => .inl ⟨p', hperm.mem_iff.mpr hp', rfl⟩)
      (fun p hp _ => hperm.mem_iff.mp hp) fun pid parent code hexit =>
        absurd hexit (hnot pid parent code)
  cases hc with
  | fork g hcall hanswer _ hdone =>
    have hnot : ∀ pid parent code, ¬ e.Exits pid parent code := by
      refine Event.not_exits fun code hexit => ?_
      rcases hcall with hcall | hcall
      · cases hcall.symm.trans hexit
      · cases hcall.symm.trans hexit
    refine h.silent (Event.report_of_none (.inl hanswer)) hle (fun p' hp' => ?_)
      (fun p hp _ => ?_) fun pid parent code hexit => absurd hexit (hnot pid parent code)
    · obtain rfl | ⟨parent, kstack, -, rfl⟩ := hdone.tasks
      · exact .inl ⟨p', hp', rfl⟩
      · rcases mem_append.mp hp' with hp' | hp'
        · exact .inl ⟨p', hp', rfl⟩
        · obtain rfl := mem_singleton.mp hp'
          exact .inr le_rfl
    · obtain rfl | ⟨parent, kstack, -, rfl⟩ := hdone.tasks
      · exact hp
      · exact mem_append_left _ hp
  | stay _ _ hanswer hinit hafter hsame =>
    refine hturn (Event.report_of_none (.inl hanswer)) ?_ (hsame ▸ List.Perm.refl _)
    rintro pid parent code ⟨-, n, hnode, rfl, -, hid⟩
    obtain ⟨t, ht, hone⟩ := hinit
    obtain ⟨next, hcell⟩ := hq.perm_mem ht
    cases hnode.symm.trans (Kernel.node_ok hcell)
    exact hid hone
  | exit code others t k₁ zs dead b rest hcall hanswer hr hinit _ _ _ _ hl _ hperm =>
    have hpermq := hr.perm hq
    have hself : (e.before.currentTask, t) ∈ q := hpermq.mem_iff.mp (by simp)
    have hline := hl.turn (Quiet.exitLine code fun p hp => hquiet p (hpermq.mem_iff.mp hp)) hperm
    have horder' : ∀ p ∈ q, p.2.state = .zombie → p.2.parentPid ≠ t.id := by
      have hclean := horder q t hq hself
      rw [hcall] at hclean
      exact hclean hinit
    refine h.silent (Event.report_of_none (.inl hanswer)) hle (fun p' hp' => .inl ?_)
      (fun p hp hzombie => ?_) fun pid parent code' hexit => ?_
    · rcases mem_append.mp (hline.mem_iff.mpr hp') with hp' | hp'
      · obtain ⟨x, hx, rfl⟩ := mem_map.mp hp'
        refine ⟨x, hpermq.mem_iff.mp (mem_append_left _ hx), ?_⟩
        unfold reparent
        split
        · rfl
        · rfl
      · obtain rfl := mem_singleton.mp hp'
        exact ⟨_, hself, rfl⟩
    · refine hline.mem_iff.mp ?_
      rcases mem_append.mp (hpermq.mem_iff.mpr hp) with hp' | hp'
      · have hsame : reparent t.id p = p := by
          unfold reparent
          rw [if_neg (horder' p hp hzombie)]
        exact mem_append_left _ (mem_map.mpr ⟨p, hp', hsame⟩)
      · obtain rfl := mem_singleton.mp hp'
        exact absurd hzombie (hfamily.live _ hp rfl)
    · obtain ⟨hcall', n, hnode, rfl, rfl, -⟩ := hexit
      cases hcall.symm.trans hcall'
      obtain ⟨next, hcell⟩ := hq.perm_mem hself
      cases hnode.symm.trans (Kernel.node_ok hcell)
      refine ⟨⟨_, hself, rfl⟩,
        (e.before.currentTask, { t with exitCode := code, state := .zombie }),
        hline.mem_iff.mp ?_, rfl, rfl, rfl, rfl⟩
      exact mem_append_right _ mem_cons_self
  | look pid status w hcall hanswer hkind _ hafter hsame =>
    refine hturn (Event.report_of_none (.inr ?_)) ?_ (hsame ▸ List.Perm.refl _)
    · rcases hkind with rfl | rfl
      · exact .inl hanswer
      · exact .inr hanswer
    · refine Event.not_exits fun code hexit => ?_
      cases hcall.symm.trans hexit
  | reap pid status s pre a t post hcall hanswer hs heq hwanted hkept hdone =>
    have hmem : (a, t) ∈ q := by
      rw [heq]
      simp
    have horder' := horder q s hq hs
    rw [hcall] at horder'
    obtain ⟨rfl, honly⟩ := horder' (a, t) hmem hwanted
    have hnone : (pre ++ post).filter (fun p => ¬ Swept s.id p.2) = pre ++ post := by
      refine filter_eq_self.mpr fun p hp => ?_
      have hp' : p ∈ q := by
        rw [heq]
        exact perm_middle.mem_iff.mpr (mem_cons_of_mem _ hp)
      have hkeep : ¬ Swept s.id p.2 := by
        intro hswept
        obtain rfl := honly p hp' hswept.1 hswept.2.1
        exact (heq ▸ hq).not_mem _ hp rfl
      simpa using hkeep
    rw [hkept, hnone]
    refine h.reaped heq hhealthy.ids (lt_of_lt_of_le (hhealthy.bound _ hmem) hle) hle ?_ ?_
    · refine Event.not_exits fun code hexit => ?_
      cases hcall.symm.trans hexit
    · rw [Event.report_of_answer hq hs hanswer, if_pos rfl, hwanted.2.1]
  | switch r zs dead b rest hcall hanswer hr hl _ hperm =>
    have hpermq := hr.perm hq
    refine hturn (Event.report_of_none (.inl hanswer)) ?_
      (hpermq.symm.trans (hl.turn (fun p hp => hquiet p (hpermq.mem_iff.mp hp)) hperm))
    refine Event.not_exits fun code hexit => ?_
    cases hcall.symm.trans hexit
  | signals hcall _ _ =>
    obtain ⟨pid, sig, hcall⟩ | ⟨sig, handler, hcall⟩ := hcall
    · rw [hcall] at hplain
      exact hplain.elim
    · rw [hcall] at hplain
      exact hplain.elim
  | memory m hcall hanswer hafter hsame =>
    refine hturn (Event.report_of_none (.inl hanswer)) ?_ (hsame ▸ List.Perm.refl _)
    refine Event.not_exits fun code hexit => ?_
    cases hcall.symm.trans hexit

theorem Event.Orderly.accounts (horder : e.Orderly) (hq : Queued e.before q)
    (hq' : Queued e.after q') (hc : Change kt e q q') : e.Accounts := by
  intro a n hnull hsome hnone
  obtain ⟨pid, status, s, hcall, hs, hmem, hzombie, hparent, p, hp, hwanted, hanswer⟩ :=
    hc.freed hq hq' hnull hsome hnone
  have horder' := horder q s hq hs
  rw [hcall] at horder'
  obtain ⟨rfl, honly⟩ := horder' p hp hwanted
  obtain rfl := honly _ hmem hzombie hparent
  rw [Event.report_of_answer hq hs hanswer, if_pos rfl, hparent]

/-- In a run without signals whose parents are orderly, no exit code is lost. -/
theorem Run.never_lost (hboot : Booted kt k₀) (hrun : Run kt k₀ es k)
    (hplain : ∀ e ∈ es, e.call.Plain) (horder : ∀ e ∈ es, e.Orderly) : NeverLost es k := by
  have hall : ∃ q, Queued k q ∧ Healthy kt k q ∧ Family k q ∧ Quiet q ∧ Ledger es k q ∧
      ∀ e ∈ es, e.Accounts := by
    induction hrun with
    | nil =>
      obtain ⟨p, hq, h, hfamily⟩ := booted_family hboot
      obtain ⟨i, hi, -, -, hnone⟩ := h.init
      obtain rfl := mem_singleton.mp hi
      refine ⟨_, hq, h, hfamily, fun x hx => ?_, ⟨by simp, by simp⟩, by simp⟩
      obtain rfl := mem_singleton.mp hx
      exact hnone
    | @snoc es e hprev he ih =>
      obtain ⟨q, hq, h, hfamily, hquiet, hledger, haccounts⟩ :=
        ih (fun e he => hplain e (mem_append_left _ he))
          fun e he => horder e (mem_append_left _ he)
      obtain ⟨q', hq', h', hchange⟩ := he.change hq h
      have hplain' := hplain e (by simp)
      have horder' := horder e (by simp)
      refine ⟨q', hq', h', hfamily.step hq h hchange (Event.calm_of_quiet hq h hquiet),
        hchange.quiet hq hplain' hquiet,
        hledger.step hq h hfamily hquiet hplain' horder' hchange, fun x hx => ?_⟩
      rcases mem_append.mp hx with hx | hx
      · exact haccounts x hx
      · obtain rfl := mem_singleton.mp hx
        exact horder'.accounts hq hq' hchange
  obtain ⟨q, hq, -, -, -, hledger, haccounts⟩ := hall
  refine ⟨haccounts, fun e he pid parent code hexit => ?_⟩
  obtain hdone | ⟨hnone, p, hp, hid, -, hzombie, hcode⟩ := hledger.exited e he pid parent code hexit
  · exact .inl hdone
  · exact .inr ⟨hnone, q, p.2, p.1, hq, hp, hid, hzombie, hcode⟩

def Event.orderly (e : Event) : Bool :=
  decide ((queue e.before).length < 20) &&
    (queue e.before).all fun c => c.1 != e.before.currentTask ||
      match e.call with
      | .waitpid pid status =>
        (queue e.before).all fun p => ! decide (Wanted c.2.id pid p.2) || (status &&
          (queue e.before).all fun p' =>
            ! (p'.2.state == .zombie && p'.2.parentPid == c.2.id) || p'.1 == p.1)
      | .exit _ =>
        c.2.id == 1 || (queue e.before).all fun p =>
          ! (p.2.state == .zombie && p.2.parentPid == c.2.id)
      | _ => true

theorem Queued.eq_of_addr {p p' : Entry} (hq : Queued k q) (hp : p ∈ q) (hp' : p' ∈ q)
    (heq : p.1 = p'.1) : p = p' :=
  inj_on_of_nodup_map hq.nodup hp hp' heq

theorem Event.orderly_sound (h : e.orderly = true) : e.Orderly := by
  intro q s hq hs
  obtain ⟨hlen, hall⟩ := (Bool.and_eq_true _ _).mp h
  rw [← queue_eq hq (of_decide_eq_true hlen), List.all_eq_true] at hall
  have hself := hall _ hs
  rw [Bool.or_eq_true] at hself
  have hself' := hself.resolve_left (by simp)
  split
  · next pid status hcall =>
      intro p hp hwanted
      rw [hcall] at hself'
      have hcheck := all_eq_true.mp hself' p hp
      rw [Bool.or_eq_true, Bool.and_eq_true] at hcheck
      obtain ⟨hstatus, honly⟩ := hcheck.resolve_left (by simpa using hwanted)
      refine ⟨hstatus, fun p' hp' hzombie hparent => hq.eq_of_addr hp' hp ?_⟩
      have haddr := all_eq_true.mp honly p' hp'
      simpa [hzombie, hparent] using haddr
  · next code hcall =>
      intro hid p hp hzombie hparent
      rw [hcall, Bool.or_eq_true] at hself'
      have hcheck := all_eq_true.mp (hself'.resolve_left (by simpa using hid)) p hp
      simp [hzombie, hparent] at hcheck
  · trivial

/-- A child exits with 7, and init asks for it. -/
theorem never_lost_trial : ∃ k₀ es k, Booted 640 k₀ ∧ Run 640 k₀ es k ∧
    (∃ e ∈ es, e.report = some (1, 2, some 7)) ∧ NeverLost es k := by
  obtain ⟨k₀, es, k, hboot, hrun, hcheck⟩ := passes_run
    (show passes [.spawn 101 700, .switch, .exit 7, .waitpid 2 true]
      (fun x => (x.2.1.any fun e => e.report == some (1, 2, some 7)) &&
        x.2.1.all fun e => decide e.call.Plain && e.orderly) = true by decide +kernel)
  obtain ⟨htold, hall⟩ : (∃ e ∈ es, e.report = some (1, 2, some 7)) ∧
      ∀ e ∈ es, e.call.Plain ∧ e.orderly = true := by simpa using hcheck
  exact ⟨k₀, es, k, hboot, hrun, htold, hrun.never_lost hboot (fun e he => (hall e he).1)
    fun e he => Event.orderly_sound (hall e he).2⟩

/-- Two children exit, and the call that reaps the first frees the second as well. -/
theorem code_lost : ¬ ∀ k₀ es k, Booted 640 k₀ → Run 640 k₀ es k → (∀ e ∈ es, e.call.Plain) →
    NeverLost es k := by
  intro hclaim
  obtain ⟨k₀, es, k, hboot, hrun, hcheck⟩ := passes_run
    (show passes [.spawn 101 700, .spawn 102 701, .switch, .exit 7, .exit 8, .waitpid 2 true]
      (fun x => (x.2.1.any fun e => e.report == some (1, 2, some 7) &&
        (e.after.nodes 102).isNone && (e.before.nodes 102).any fun n => n.task.id == 3) &&
        x.2.1.all fun e => e.call.Plain) = true by decide +kernel)
  obtain ⟨⟨e, he, ⟨htold, hfreed⟩, hnode⟩, hplain⟩ : (∃ e ∈ es, (e.report = some (1, 2, some 7) ∧
      e.after.nodes 102 = none) ∧ (e.before.nodes 102).any (fun n => n.task.id == 3) = true) ∧
      ∀ e ∈ es, e.call.Plain := by simpa using hcheck
  obtain ⟨n, hsome, hid⟩ := (any_eq_true _ _).mp hnode
  have hreport := (hclaim k₀ es k hboot hrun hplain).1 e he 102 n (by decide) hsome hfreed
  rw [htold] at hreport
  simp only [some.injEq, Prod.mk.injEq] at hreport
  have hthree : n.task.id = 3 := by simpa using hid
  omega

end Ledger

end JexOs.Tasks
