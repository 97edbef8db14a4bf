import JexOs.Proof.TaskRun

/-!
# Waiting for a child

The scan asks for the child with the given pid, but the check whether there is anything to wait for takes every
child.
-/

namespace JexOs.Tasks

open List

/-- A child, alive or not, that a call `waitpid(pid)` of task `self` is about. -/
def Awaited (self : Nat) (pid : Int) (t : Task) : Prop :=
  t.parentPid = self ∧ (pid = -1 ∨ (t.id : Int) = pid)

instance (self : Nat) (pid : Int) (t : Task) : Decidable (Awaited self pid t) :=
  inferInstanceAs (Decidable (_ ∧ _))

def NoChild (fuel : Nat) (k : Kernel) (pid : Int) (status : Bool) : Prop :=
  ∃ k', waitpid fuel k pid status = .ok (.echild, k')

section Looks

variable {fuel : Nat} {k : Kernel} {q : List Entry} {s : Task} {pid : Int} {status : Bool}

theorem not_noChild_of_wanted (hq : Queued k q) (hs : (k.currentTask, s) ∈ q) (hfuel : q.length < fuel)
    (hany : ∃ p ∈ q, Wanted s.id pid p.2) : ¬ NoChild fuel k pid status := by
  obtain ⟨n, hcell⟩ := hq.perm_mem hs
  have hnode := Kernel.node_ok hcell
  obtain ⟨pre, ⟨a, t⟩, post, rfl, hpre, hwanted⟩ :=
    exists_first (P := fun p : Entry => ¬ Wanted s.id pid p.2)
      (by obtain ⟨p, hp, hw⟩ := hany; exact ⟨p, hp, not_not.mpr hw⟩)
  simp only [length_append, length_cons] at hfuel
  have hscan := wanted_run_some hq hpre (not_not.mp hwanted) (show pre.length < fuel by omega)
  rintro ⟨k', hrun⟩
  unfold waitpid at hrun
  rw [hnode] at hrun
  change (do
    let r ← Loop.run Stop.spinning (wantedBody k s.id pid) fuel (0, k.readyQueue)
    _) = _ at hrun
  rw [hq.ready, hscan] at hrun
  -- whatever the freeing comes to, the answer is a pid
  obtain ⟨found, hfound, hrun⟩ := Loop.bind_eq_ok.mp hrun
  cases hfound
  obtain ⟨node, -, hrun⟩ := Loop.bind_eq_ok.mp hrun
  obtain ⟨k₁, -, hrun⟩ := Loop.bind_eq_ok.mp hrun
  obtain ⟨k₂, -, hrun⟩ := Loop.bind_eq_ok.mp hrun
  obtain ⟨k₃, -, hrun⟩ := Loop.bind_eq_ok.mp hrun
  cases hrun

theorem waitpid_again (hq : Queued k q) (hs : (k.currentTask, s) ∈ q) (hfuel : q.length < fuel)
    (hnone : ∀ p ∈ q, ¬ Wanted s.id pid p.2) (hchild : ∃ p ∈ q, p.2.parentPid = s.id) :
    waitpid fuel k pid status = .ok (.again, k) := by
  obtain ⟨n, hcell⟩ := hq.perm_mem hs
  obtain ⟨p, hp, hparent⟩ := hchild
  have hcount : q.any (fun p => p.2.parentPid = s.id) = true := any_eq_true.mpr ⟨p, hp, decide_eq_true hparent⟩
  have hlook : waitpid fuel k pid status = _ := waitpid_waits hq (Kernel.node_ok hcell) hnone hfuel
  rwa [hcount, if_pos rfl] at hlook

theorem noChild_iff (hq : Queued k q) (hs : (k.currentTask, s) ∈ q) (hfuel : q.length < fuel) :
    NoChild fuel k pid status ↔ ∀ p ∈ q, p.2.parentPid ≠ s.id := by
  obtain ⟨n, hcell⟩ := hq.perm_mem hs
  have hnode := Kernel.node_ok hcell
  by_cases hany : ∃ p ∈ q, Wanted s.id pid p.2
  · refine iff_of_false (not_noChild_of_wanted hq hs hfuel hany) fun hnone => ?_
    obtain ⟨p, hp, hwanted⟩ := hany
    exact hnone p hp hwanted.2.1
  · push Not at hany
    constructor
    · rintro ⟨k', hrun⟩ p hp hchild
      cases (waitpid_again hq hs hfuel hany ⟨p, hp, hchild⟩).symm.trans hrun
    · intro hnone
      have hcount : q.any (fun p => p.2.parentPid = s.id) = false :=
        any_eq_false.mpr fun p hp => by simpa using hnone p hp
      have hlook : waitpid fuel k pid status = _ := waitpid_waits hq hnode hany hfuel
      rw [hcount] at hlook
      exact ⟨k, hlook⟩

/-- The first look returns `-ECHILD` for lack of the child asked for, and only then, exactly if the
caller has that child or no child at all. -/
theorem waitpid_noChild_iff (hq : Queued k q) (hs : (k.currentTask, s) ∈ q) (hfuel : q.length < fuel) :
    (NoChild fuel k pid status ↔ ∀ p ∈ q, ¬ Awaited s.id pid p.2) ↔
      ((∀ p ∈ q, p.2.parentPid ≠ s.id) ∨ ∃ p ∈ q, Awaited s.id pid p.2) := by
  rw [noChild_iff hq hs hfuel]
  constructor
  · intro hlaw
    by_cases hawaited : ∃ p ∈ q, Awaited s.id pid p.2
    · exact .inr hawaited
    · push Not at hawaited
      exact .inl (hlaw.mpr hawaited)
  · rintro (hnone | ⟨p, hp, hawaited⟩)
    · exact iff_of_true hnone fun p hp hawaited => hnone p hp hawaited.1
    · exact iff_of_false (fun hnone => hnone p hp hawaited.1) fun hnone => hnone p hp hawaited

theorem exists_one_child : ∃ k₀ es k q s c, Booted 640 k₀ ∧ Run 640 k₀ es k ∧ Queued k q ∧
    (k.currentTask, s) ∈ q ∧ q.length < 20 ∧ c ∈ q ∧ c.2.parentPid = s.id ∧ c.2.id = 2 ∧ ∀ p ∈ q,
    p.2.id ≠ 99 := by
  obtain ⟨k₀, es, k, hboot, hrun, hcheck⟩ := passes_run
    (show passes [.spawn 101 700] (fun x => decide ((queue x.2.2).length < 20) &&
      ((queue x.2.2).all (fun p => p.2.id != 99) &&
        (queue x.2.2).any fun p => p.1 == x.2.2.currentTask &&
          (queue x.2.2).any fun c => c.2.parentPid == p.2.id && c.2.id == 2)) = true by decide +kernel)
  obtain ⟨hlen, hcheck⟩ := (Bool.and_eq_true _ _).mp hcheck
  obtain ⟨hids, hfound⟩ := (Bool.and_eq_true _ _).mp hcheck
  obtain ⟨q, hq, -⟩ := hrun.healthy hboot
  have hqueue := queue_eq hq (of_decide_eq_true hlen)
  rw [← hqueue] at hlen hids hfound
  obtain ⟨⟨a, s⟩, hs, hself⟩ := any_eq_true.mp hfound
  obtain ⟨hcur, hchild⟩ := (Bool.and_eq_true _ _).mp hself
  obtain ⟨c, hc, htwo⟩ := any_eq_true.mp hchild
  obtain ⟨hparent, hid⟩ := (Bool.and_eq_true _ _).mp htwo
  obtain rfl : a = k.currentTask := eq_of_beq hcur
  exact ⟨k₀, es, k, q, s, c, hboot, hrun, hq, hs, of_decide_eq_true hlen, hc, eq_of_beq hparent,
    eq_of_beq hid, fun p hp => by simpa using all_eq_true.mp hids p hp⟩

/-- Init waits for its child. -/
theorem waitpid_noChild_trial : ∃ k₀ es k q s, Booted 640 k₀ ∧ Run 640 k₀ es k ∧ Queued k q ∧
    (k.currentTask, s) ∈ q ∧ (∃ p ∈ q, Awaited s.id 2 p.2) ∧
    (NoChild 20 k 2 false ↔ ∀ p ∈ q, ¬ Awaited s.id 2 p.2) := by
  obtain ⟨k₀, es, k, q, s, c, hboot, hrun, hq, hs, hfuel, hc, hparent, hid, -⟩ := exists_one_child
  have hawait : ∃ p ∈ q, Awaited s.id 2 p.2 := ⟨c, hc, hparent, .inr (by rw [hid]; rfl)⟩
  exact ⟨k₀, es, k, q, s, hboot, hrun, hq, hs, hawait, (waitpid_noChild_iff hq hs hfuel).mpr (.inr hawait)⟩

/-- Init has one child, task 2, and waits for task 99: it is told to go on waiting. -/
theorem not_noChild_stranger : ¬ ∀ k₀ es k q s fuel pid, Booted 640 k₀ → Run 640 k₀ es k →
    Queued k q → (k.currentTask, s) ∈ q → q.length < fuel →
    (NoChild fuel k pid false ↔ ∀ p ∈ q, ¬ Awaited s.id pid p.2) := by
  intro hclaim
  obtain ⟨k₀, es, k, q, s, c, hboot, hrun, hq, hs, hfuel, hc, hparent, -, hids⟩ := exists_one_child
  have hnone : ∀ p ∈ q, ¬ Awaited s.id 99 p.2 := by
    rintro p hp ⟨-, hall | hid⟩
    · cases hall
    · exact hids p hp (by omega)
  have hend := (hclaim k₀ es k q s 20 99 hboot hrun hq hs hfuel).mpr hnone
  exact (noChild_iff hq hs hfuel).mp hend c hc hparent

end Looks

end JexOs.Tasks
