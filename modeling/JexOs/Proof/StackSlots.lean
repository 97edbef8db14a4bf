import JexOs.Proof.Reaping

/-!
# The slots of the stack table

The table of kernel stacks has room for the first 128 pids, and pids are never used again.
-/

namespace JexOs.Tasks

open Kstack

/-- `alloc_kernel_stack` or `free_kernel_stack` is called for `pid`. Both look at the slots of the
pid one after the other, from the first. -/
def Event.StackCall (e : Event) (pid : Nat) : Prop :=
  e.StackFork ∧ pid = e.before.nextPid ∨
    ∃ w status a n, e.call = .waitpid w status ∧ a ≠ 0 ∧ e.before.nodes a = some n ∧
      e.after.nodes a = none ∧ n.task.kstack ≠ 0 ∧ pid = n.task.id

def SlotsInTable (es : List Event) : Prop :=
  ∀ e ∈ es, ∀ pid, e.StackCall pid → ∀ i, i < kstackPages → kstackSlot pid i < 1024

def StacksApart (q : List Entry) : Prop :=
  ∀ p ∈ q, ∀ p' ∈ q, p ≠ p' → p.2.kstack ≠ 0 → p'.2.kstack ≠ 0 →
    p.2.kstack + kstackSize ≤ p'.2.kstack ∨ p'.2.kstack + kstackSize ≤ p.2.kstack

section Slots

variable {kt : Nat} {k k₀ : Kernel} {e : Event} {es : List Event} {q : List Entry}

theorem stackBase_apart {pid pid' : Nat} (hne : pid ≠ pid') (hlt : pid < 256) (hlt' : pid' < 256) :
    stackBase pid + kstackSize ≤ stackBase pid' ∨ stackBase pid' + kstackSize ≤ stackBase pid := by
  unfold stackBase kstackVaddrBase kstackSize
  omega

theorem Healthy.stacksApart (h : Healthy kt k q) : StacksApart q := by
  intro p hp p' hp' hne hstack hstack'
  have hcount := h.count.2
  have hlt := h.bound p hp
  have hlt' := h.bound p' hp'
  have hid : p.2.id ≠ p'.2.id := fun heq => hne (h.eq_of_id hp hp' heq)
  rw [((h.placed p hp).resolve_left hstack).2, ((h.placed p' hp').resolve_left hstack').2]
  exact stackBase_apart hid (by omega) (by omega)

theorem kstackSlot_lt {pid i : Nat} (hpid : pid < 128) (hi : i < kstackPages) : kstackSlot pid i < 1024 := by
  have hi' : i < 8 := hi
  rw [kstackSlot_eq (by omega) hi']
  omega

theorem Run.nextPid_le (hboot : Booted kt k₀) (hrun : Run kt k₀ es k)
    (hforks : ∀ e ∈ es, e.StackFork → e.before.nextPid < 128) : k.nextPid ≤ 128 := by
  induction hrun with
  | nil =>
    obtain ⟨p, -, -, -, hpid, -⟩ := booted_healthy hboot
    omega
  | @snoc es e hprev he ih =>
    have hbefore := ih fun e he => hforks e (List.mem_append_left _ he)
    obtain ⟨q, hq, h⟩ := hprev.healthy hboot
    obtain ⟨q', -, -, hchange⟩ := he.change hq h
    obtain heq | ⟨hfork, heq⟩ := hchange.nextPid
    · omega
    · have hlt := hforks e (by simp) hfork
      omega

theorem SlotsInTable.nextPid_lt (hboot : Booted kt k₀) (hrun : Run kt k₀ es k)
    (hslots : SlotsInTable es) (he : e ∈ es) (hfork : e.StackFork) : e.before.nextPid < 128 := by
  obtain ⟨es', hrun', -⟩ := hrun.upTo he
  obtain ⟨q, -, h⟩ := hrun'.healthy hboot
  have hslot := hslots e he e.before.nextPid (.inl ⟨hfork, rfl⟩) 0 (by decide)
  rw [kstackSlot_eq h.count.2 (by decide)] at hslot
  omega

/-- The slots stay in the table exactly as long as there are pids below 128. -/
theorem stack_slots_iff (hboot : Booted kt k₀) (hrun : Run kt k₀ es k) :
    (SlotsInTable es ∧ ∃ q, Queued k q ∧ StacksApart q) ↔ ∀ e ∈ es, e.StackFork → e.before.nextPid < 128 := by
  constructor
  · rintro ⟨hslots, -⟩ e he hfork
    exact hslots.nextPid_lt hboot hrun he hfork
  · intro hforks
    obtain ⟨q, hq, h⟩ := hrun.healthy hboot
    refine ⟨fun e he pid hcall i hi => kstackSlot_lt ?_ hi, q, hq, h.stacksApart⟩
    obtain ⟨hfork, rfl⟩ | ⟨w, status, a, n, -, hnull, hsome, hnone, -, rfl⟩ := hcall
    · exact hforks e he hfork
    · obtain ⟨es', hrun', hhappens, hsub⟩ := hrun.upTo he
      have hle := hrun'.nextPid_le hboot fun x hx => hforks x (hsub x hx)
      obtain ⟨q₁, hq₁, h₁⟩ := hrun'.healthy hboot
      obtain ⟨q₂, hq₂, -, hchange⟩ := hhappens.change hq₁ h₁
      obtain ⟨-, -, -, -, -, hmem, -⟩ := hchange.freed hq₁ hq₂ hnull hsome hnone
      exact lt_of_lt_of_le (h₁.bound _ hmem) hle

theorem exists_forks (hboot : Booted kt k₀) {n : Nat} (hn : n ≤ 254) :
    ∃ es k a, Run kt k₀ es k ∧ k.nextPid = 2 + n ∧ 0 < a ∧ ∀ b, a ≤ b → k.nodes b = none := by
  induction n with
  | zero =>
    obtain ⟨p, -, -, -, hpid, hnone⟩ := booted_healthy hboot
    exact ⟨[], k₀, p.1 + 1, Run.nil, hpid, by omega, fun b hb => hnone b (by omega)⟩
  | succ n ih =>
    obtain ⟨es, k, a, hrun, hpid, hpos, hnone⟩ := ih (by omega)
    obtain ⟨q, hq, h⟩ := hrun.healthy hboot
    have hready : (Move.spawn a (kt + 1)).ready kt k = true := by simp [Move.ready, hnone a le_rfl]
    have hallowed := Move.allowed h.table hready
    obtain ⟨r, k', q', hfork, hdone⟩ | ⟨hlast, -⟩ := fork_spec hq h hallowed le_rfl
    · have hgot : k'.nextPid = k.nextPid + 1 :=
        hdone.nextPid.trans (pidAfter_granted (by dsimp only; omega) (by dsimp only; omega))
      have hnext := Run.snoc
        (e := { before := k, call := _, answer := none, after := k' }) hrun
        ⟨hallowed, _, map_eq_ok.mpr ⟨_, hfork, rfl⟩⟩
      refine ⟨_, k', a + 1, hnext, by omega, by omega, fun b hb => ?_⟩
      have hold := hnone b (by omega)
      exact (hdone.other b (by dsimp only; omega) (hq.apart hold)).trans hold
    · omega

/-- A child exits and its stack is freed. -/
theorem stack_slots_trial : ∃ k₀ es k, Booted 640 k₀ ∧ Run 640 k₀ es k ∧ es.length = 4 ∧
    SlotsInTable es ∧ ∃ q, Queued k q ∧ StacksApart q := by
  obtain ⟨k₀, es, k, hboot, hrun, hcheck⟩ := passes_run
    (show passes [.spawn 101 700, .switch, .exit 7, .waitpid 2 true]
      (fun x => x.2.1.length == 4 && x.2.1.all fun e => e.before.nextPid < 128) = true by
      decide +kernel)
  obtain ⟨hlen, hpid⟩ : es.length = 4 ∧ ∀ e ∈ es, e.before.nextPid < 128 := by simpa using hcheck
  exact ⟨k₀, es, k, hboot, hrun, hlen, (stack_slots_iff hboot hrun).mpr fun e he _ => hpid e he⟩

/-- The fork after the 126th asks for slot 1024. -/
theorem slot_behind_table : ¬ ∀ k₀ es k, Booted 640 k₀ → Run 640 k₀ es k →
    SlotsInTable es ∧ ∃ q, Queued k q ∧ StacksApart q := by
  intro hclaim
  obtain ⟨k₀, -, -, hboot, -⟩ := passes_run (show passes [] (fun _ => true) = true by decide +kernel)
  obtain ⟨es, k, a, hrun, hpid, hpos, hnone⟩ := exists_forks hboot (show 127 ≤ 254 by decide)
  have hle := hrun.nextPid_le hboot fun e he hfork =>
    (hclaim k₀ es k hboot hrun).1.nextPid_lt hboot hrun he hfork
  omega

end Slots

end JexOs.Tasks
