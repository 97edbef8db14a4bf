import JexOs.Proof.TaskRun
import Mathlib.Data.List.Rotate

/-!
# Fairness

Without signals a switch turns the ring until the next task that is not a zombie is the running one.
-/

namespace JexOs.Tasks

open List

def Untroubled (t : Task) : Prop := t.signalPending &&& ~~~t.signalBlocked = 0

instance (t : Task) : Decidable (Untroubled t) := inferInstanceAs (Decidable (_ = _))

def live (r : List Entry) : List Entry := r.filter fun p => p.2.state ≠ .zombie

def switches (fuel : Nat) : Nat → Kernel → Result (List Nat × Kernel)
  | 0, k => return ([], k)
  | n + 1, k => do
      let k ← taskSwitch fuel k
      let (selected, last) ← switches fuel n k
      return (k.currentTask :: selected, last)

section Turns

variable {fuel n : Nat} {k : Kernel} {q r : List Entry} {p b : Entry} {l : List Entry}

theorem mem_live : p ∈ live r ↔ p ∈ r ∧ p.2.state ≠ .zombie := by
  unfold live
  rw [mem_filter, decide_eq_true_iff]

theorem Untroubled.delivered {t : Task} (h : Untroubled t) : delivered t = t ∧ ¬ Fatal t := by
  unfold Untroubled at h
  unfold Tasks.delivered Fatal deliverSignals
  simp [h]

theorem live_eq_cons (h : live r = b :: l) :
    ∃ zs rest, r = zs ++ b :: rest ∧ (∀ z ∈ zs, z.2.state = .zombie) ∧ live rest = l := by
  obtain ⟨zs, rest, rfl, hzs, -, hrest⟩ := filter_eq_cons_iff.mp h
  exact ⟨zs, rest, rfl, fun z hz => by simpa using hzs z hz, hrest⟩

theorem switch_turn (hr : Upcoming k r) (hquiet : ∀ p ∈ live r, Untroubled p.2) (hlive : live r = b :: l)
    (hfuel : r.length < fuel) :
    ∃ k' r', taskSwitch fuel k = .ok k' ∧ k'.currentTask = b.1 ∧ Upcoming k' r' ∧ r'.Perm r ∧
    live r' = l ++ [b] := by
  obtain ⟨zs, rest, heq, hzombie, hrest⟩ := live_eq_cons hlive
  obtain ⟨hb, halive⟩ : b ∈ r ∧ b.2.state ≠ .zombie := mem_live.mp (hlive ▸ mem_cons_self)
  obtain ⟨hsame, hsafe⟩ := (hquiet b (mem_live.mpr ⟨hb, halive⟩)).delivered
  have hline : Lineup r zs [] b rest :=
    { eq := heq
      zombie := hzombie
      live := by simpa using halive
      fatal := nofun
      safe := hsafe }
  obtain ⟨c, others, rfl, hring, hcur⟩ := hr
  obtain ⟨-, k₂, -, -, -, -, -, hdone, hrun⟩ := taskSwitch_spec hring hcur hline.eq hline.zombie
    (hline.not_running hring) hline.live hline.fatal hline.safe
    (show others.length + 1 < fuel by simpa using hfuel)
  have hring' : Ring k₂ (b :: (rest ++ zs)) := by
    have hopen := hdone.ring
    rwa [hsame] at hopen
  refine ⟨_, (rest ++ zs) ++ [b], hrun, hdone.currentTask,
    ⟨b, rest ++ zs, rfl, hring'.congr rfl rfl, hdone.currentTask⟩, ?_, ?_⟩
  · rw [heq]
    exact (perm_append_singleton b _).trans ((List.Perm.cons b perm_append_comm).trans perm_middle.symm)
  · have hnone : live zs = [] := filter_eq_nil_iff.mpr fun z hz => by simp [hzombie z hz]
    have hself : live [b] = [b] := by simp [live, halive]
    unfold live at hrest hnone hself ⊢
    rw [filter_append, filter_append, hrest, hnone, hself, append_nil]

theorem switches_spec (hr : Upcoming k r) (hquiet : ∀ p ∈ live r, Untroubled p.2) (hne : live r ≠ [])
    (hfuel : r.length < fuel) (hn : n ≤ (live r).length) :
    ∃ k' r', switches fuel n k = .ok (((live r).take n).map Prod.fst, k') ∧ Upcoming k' r' ∧
      r'.Perm r ∧ live r' = (live r).rotate n := by
  induction n generalizing k r with
  | zero => exact ⟨k, r, by simp [switches]; rfl, hr, .refl r, by simp⟩
  | succ n ih =>
    obtain ⟨b, l, hlive⟩ := exists_cons_of_ne_nil hne
    obtain ⟨k₁, r₁, hrun, hcur, hr₁, hperm, hlive₁⟩ := switch_turn hr hquiet hlive hfuel
    rw [hlive, length_cons] at hn
    have hquiet₁ : ∀ p ∈ live r₁, Untroubled p.2 := by
      intro p hp
      obtain ⟨hmem, halive⟩ := mem_live.mp hp
      exact hquiet p (mem_live.mpr ⟨hperm.mem_iff.mp hmem, halive⟩)
    obtain ⟨k', r', hrest, hr', hperm', hlive'⟩ := ih hr₁ hquiet₁ (by simp [hlive₁])
      (by rwa [hperm.length_eq]) (by simp only [hlive₁, length_append, length_singleton]; omega)
    refine ⟨k', r', ?_, hr', hperm'.trans hperm, ?_⟩
    · rw [switches, hrun]
      change (do let (selected, last) ← switches fuel n k₁; _) = _
      rw [hrest, hlive₁, hlive, take_append_of_le_length (by omega)]
      change Except.ok (k₁.currentTask :: _, k') = _
      rw [hcur, take_succ_cons, map_cons]
    · rw [hlive', hlive₁, hlive, rotate_cons_succ]

/-- As many switches as there are live tasks select each of them once. -/
theorem switches_fair (hq : Queued k q) (hmem : ∃ p ∈ q, p.1 = k.currentTask)
    (hquiet : ∀ p ∈ live q, Untroubled p.2) (hne : live q ≠ []) (hfuel : q.length < fuel) :
    ∃ selected k', switches fuel (live q).length k = .ok (selected, k') ∧
      selected.Perm ((live q).map Prod.fst) ∧ ∀ p ∈ live q, selected.count p.1 = 1 := by
  obtain ⟨r, hr, hperm⟩ := upcoming_of_mem hq hmem
  have hlive : (live r).Perm (live q) := hperm.filter _
  obtain ⟨k', r', hrun, -⟩ := switches_spec hr (fun p hp => hquiet p (hlive.mem_iff.mp hp))
    (fun hnil => hne (Perm.eq_nil (hnil ▸ hlive.symm))) (by rwa [hperm.length_eq]) hlive.symm.length_eq.le
  rw [← hlive.length_eq, take_length] at hrun
  have hselected : ((live r).map Prod.fst).Perm ((live q).map Prod.fst) := hlive.map Prod.fst
  refine ⟨_, k', by rwa [hlive.length_eq] at hrun, hselected, fun p hp => ?_⟩
  have hnodup : ((live q).map Prod.fst).Nodup := hq.nodup.sublist (filter_sublist.map Prod.fst)
  exact count_eq_one_of_mem (hselected.nodup_iff.mpr hnodup) (hselected.mem_iff.mpr (mem_map_of_mem hp))

/-- Init runs, task 2 is ready, and task 3 has exited. -/
theorem switches_fair_trial : ∃ k₀ es k q selected k', Booted 640 k₀ ∧ Run 640 k₀ es k ∧ Queued k q ∧
    q.length = 3 ∧ (live q).length = 2 ∧ switches 20 2 k = .ok (selected, k') ∧
    selected.Perm ((live q).map Prod.fst) := by
  obtain ⟨k₀, es, k, hboot, hrun, hcheck⟩ := passes_run
    (show passes [.spawn 101 700, .spawn 102 701, .switch, .switch, .exit 3]
      (fun x => decide ((queue x.2.2).length = 3 ∧ (live (queue x.2.2)).length = 2 ∧
        ∀ p ∈ live (queue x.2.2), Untroubled p.2)) = true by decide +kernel)
  obtain ⟨hlen, htwo, hquiet⟩ := of_decide_eq_true hcheck
  obtain ⟨q, hq, h⟩ := hrun.healthy hboot
  have hqueue : q = queue k := queue_eq hq (hlen.trans_lt (by decide))
  rw [← hqueue] at hlen htwo hquiet
  obtain ⟨selected, k', hswitches, hselected, -⟩ := @switches_fair 20 _ _ hq h.current hquiet
    (fun hnil => by simp [hnil] at htwo) (by omega)
  rw [htwo] at hswitches
  exact ⟨k₀, es, k, q, selected, k', hboot, hrun, hq, hlen, htwo, hswitches, hselected⟩

end Turns

end JexOs.Tasks
