import JexOs.Proof.Kstack
import JexOs.Proof.PmmLent

/-!
# Kernel stacks: all eight pages or none

`Stacking` describes a call under way: the frames taken so far stand in the first entries of the stack, and those
that have been given back no longer do. So the rollback of a failed call and `free_kernel_stack` are the same
argument with lists of different lengths.
-/

namespace JexOs.Kstack

open Paging Pmm List Option Function

structure Stacking (kt w : Nat) (m₀ : Machine) (frames : List Nat) (gone : Nat) (m : Machine) :
    Prop where
  edits : Edits kt w m₀ m
  lent : Lent m₀.pmm m.pmm (frames.drop gone)
  mapped : ∀ i f, gone ≤ i → frames[i]? = some f → m.phys kt (w + i) = entryFor (f * 4096) 3
  absent : ∀ i, i < 8 → i < gone ∨ frames.length ≤ i → ¬present (m.phys kt (w + i))

/-- The frames of the manager and the present bits of the stack table are as they were. -/
structure Restored (kt : Nat) (m₀ m : Machine) : Prop where
  frames : SameFrames m₀.pmm m.pmm
  present : ∀ i, Paging.present (m.phys kt i) ↔ Paging.present (m₀.phys kt i)
  other : ∀ f, f ≠ kt → m.phys f = m₀.phys f

structure StackMapped (kt w : Nat) (m₀ : Machine) (frames : List Nat) (m : Machine) : Prop where
  edits : Edits kt w m₀ m
  length : frames.length = 8
  lent : Lent m₀.pmm m.pmm frames
  mapped : ∀ i f, frames[i]? = some f → m.phys kt (w + i) = entryFor (f * 4096) 3

section

variable {kt kd w pid i n gone : Nat} {m₀ m m' : Machine} {frames : List Nat}

theorem Restored.refl (m : Machine) : Restored kt m m :=
  { frames := SameFrames.refl m.pmm
    present := fun _ => Iff.rfl
    other := fun _ _ => rfl }

theorem Stacking.start (habsent : ∀ i, i < 8 → ¬present (m.phys kt (w + i))) : Stacking kt w m [] 0 m :=
  { edits := Edits.refl m
    lent := Lent.refl m.pmm
    mapped := fun _ _ _ hget => nomatch hget
    absent := fun i hi _ => habsent i hi }

theorem Stacking.restored (h : Stacking kt w m₀ frames frames.length m)
    (habsent : ∀ i, i < 8 → ¬present (m₀.phys kt (w + i))) : Restored kt m₀ m := by
  have hlent := h.lent
  rw [drop_length] at hlent
  refine ⟨hlent.same, fun j => ?_, h.edits.other⟩
  by_cases hj : w ≤ j ∧ j < w + 8
  · obtain ⟨i, rfl⟩ : ∃ i, j = w + i := ⟨j - w, by omega⟩
    have hi : i < 8 := by omega
    exact iff_of_false (h.absent i hi (lt_or_ge i frames.length)) (habsent i hi)
  · rw [h.edits.words j hj]

theorem Stacking.stackMapped (h : Stacking kt w m₀ frames 0 m) (hlength : frames.length = 8) :
    StackMapped kt w m₀ frames m :=
  { edits := h.edits
    length := hlength
    lent := h.lent
    mapped := fun i f hget => h.mapped i f (Nat.zero_le i) hget }

theorem word_set (m : Machine) (s : State) (v : Nat) :
    (Machine.set { m with pmm := s } kt (w + n) v).phys kt (w + n) = v := by
  simp only [Machine.set, update_self]

theorem word_set_of_ne (m : Machine) (s : State) (v : Nat) (hne : i ≠ n) :
    (Machine.set { m with pmm := s } kt (w + n) v).phys kt (w + i) = m.phys kt (w + i) := by
  have hword : w + i ≠ w + n := by omega
  simp only [Machine.set, update_self, update_of_ne hword]

theorem Stacking.map (h : Stacking kt w m₀ frames 0 m) (hroom : frames.length < 8) {f : Nat}
    {s : State} (hlent : Lent m₀.pmm s (f :: frames)) : Stacking kt w m₀ (frames ++ [f]) 0
      (Machine.set { m with pmm := s } kt (w + frames.length) (entryFor (f * 4096) 3)) := by
  have hlength : (frames ++ [f]).length = frames.length + 1 := length_append
  refine
    { edits := h.edits.trans ((Edits.pmm m s).trans (Edits.set _ (by omega) _))
      lent := hlent.perm (perm_append_singleton f frames).symm
      mapped := fun i g _ hget => ?_
      absent := fun i hi hout => ?_ }
  · rcases lt_trichotomy i frames.length with hlt | rfl | hgt
    · rw [getElem?_append_left hlt] at hget
      rw [word_set_of_ne m s _ hlt.ne]
      exact h.mapped i g (Nat.zero_le i) hget
    · rw [getElem?_concat_length, some.injEq] at hget
      rw [← hget, word_set]
    · rw [getElem?_eq_none (by omega)] at hget
      cases hget
  · rw [word_set_of_ne m s _ (by omega)]
    exact h.absent i hi (.inr (by omega))

theorem Stacking.drop (h : Stacking kt w m₀ frames gone m) (hgone : gone < frames.length)
    (hroom : frames.length ≤ 8) : Stacking kt w m₀ frames (gone + 1)
      (Machine.set { m with pmm := pmmFreeBlock m.pmm (frameOf (m.phys kt (w + gone)) * 4096) } kt
        (w + gone) (m.phys kt (w + gone) / 2 * 2)) := by
  have hget := getElem?_eq_getElem hgone
  have hlent := h.lent
  rw [drop_eq_getElem_cons hgone] at hlent
  rw [h.mapped gone _ le_rfl hget, frameOf_entryFor_frame]
  refine
    { edits := h.edits.trans ((Edits.pmm m _).trans (Edits.set _ (by omega) _))
      lent := hlent.giveBack
      mapped := fun i g hi hget => ?_
      absent := fun i hi hout => ?_ }
  · rw [word_set_of_ne m _ _ (by omega)]
    exact h.mapped i g (by omega) hget
  · rcases lt_or_ge i gone with hlt | hge
    · rw [word_set_of_ne m _ _ hlt.ne]
      exact h.absent i hi (.inl hlt)
    · rcases Nat.eq_or_lt_of_le hge with rfl | hgt
      · rw [word_set]
        unfold present
        omega
      · rw [word_set_of_ne m _ _ hgt.ne']
        exact h.absent i hi (.inr (by omega))

structure Window (m : Machine) (kt : Nat) : Prop where
  active : m.active = true
  dir : Sees m kt m.dir

theorem Window.edits (h : Window m kt) (he : Edits kt w m m') : Window m' kt :=
  { active := he.active.trans h.active
    dir := by
      rw [he.dir]
      exact h.dir.edits he }

def Shows (m : Machine) (kt w pid : Nat) : Prop :=
  ∀ m', Edits kt w m m' → ∀ i, i < 8 → m'.translate (slotPtr (kstackSlot pid i)) = some (kt, w + i)

theorem Window.shows (h : Window m kt) (hpid : pid < 128) : Shows m kt (pid * 8) pid := by
  intro m' he i hi
  have h' := h.edits he
  rw [kstackSlot_eq (by omega) hi, translate_window h'.active h'.dir (by omega)]

theorem StackTable.shows (h : StackTable m kt) (hpid : Stacked pid) : Shows m kt (stackWord pid) pid := by
  intro m' he i hi
  have hslot := kstackSlot_eq hpid.1.le hi
  rw [translate_slot (h.edits he hpid.2) (by have := hpid.1; omega), kstackSlot_word hpid.1.le hi]

section

variable (h : Shows m₀ kt w pid) (he : Edits kt w m₀ m) (hi : i < 8)

include h he hi

theorem Shows.load : m.load (slotPtr (kstackSlot pid i)) = some (m.phys kt (w + i)) :=
  load_of_translate (h m he i hi)

theorem Shows.store (v : Nat) : m.store (slotPtr (kstackSlot pid i)) v = some (m.set kt (w + i) v) :=
  store_of_translate (h m he i hi)

theorem Shows.dropSlot : dropSlot pid i m =
    some (Machine.set { m with pmm := pmmFreeBlock m.pmm (frameOf (m.phys kt (w + i)) * 4096) }
      kt (w + i) (m.phys kt (w + i) / 2 * 2)) := by
  unfold Kstack.dropSlot
  rw [h.load he hi]
  simp only [bind_eq_bind, bind_some]
  exact h.store (he.trans (Edits.pmm m _)) hi _

end

theorem dropSlots_stacking (hshows : Shows m₀ kt w pid) (h : Stacking kt w m₀ frames 0 m)
    (hroom : frames.length ≤ 8) (hn : n ≤ frames.length) :
    ∃ m', dropSlots pid n m = some m' ∧ Stacking kt w m₀ frames n m' := by
  induction n with
  | zero => exact ⟨m, rfl, h⟩
  | succ n ih =>
    obtain ⟨m₁, hrun, h₁⟩ := ih (by omega)
    refine ⟨_, ?_, h₁.drop hn hroom⟩
    rw [dropSlots, hrun]
    exact hshows.dropSlot h₁.edits (by omega)

theorem mapSlots_stacking (hshows : Shows m₀ kt w pid)
    (hzero : Bitmap.test m₀.pmm.bitmap 0 = true) (h : Stacking kt w m₀ frames 0 m)
    (hn : frames.length + n = 8) :
    ∃ done m' frames', mapSlots pid n frames.length m = some (done, m') ∧
      (if done then frames'.length = 8 ∧ Stacking kt w m₀ frames' 0 m'
      else Stacking kt w m₀ frames' frames'.length m') := by
  induction n generalizing frames m with
  | zero => exact ⟨true, m, frames, rfl, hn, h⟩
  | succ n ih =>
    have he' : Edits kt w m₀ (allocBlock m).2 := h.edits.trans (Edits.pmm m (allocBlock m).2.pmm)
    rw [mapSlots]
    rcases h.lent.alloc hzero with hnone | ⟨f, hne, hphys, hlent⟩
    · have hsame : allocBlock m = (0, m) := by
        unfold allocBlock
        rw [hnone]
      obtain ⟨m', hdrop, hstacking⟩ := dropSlots_stacking hshows h (by omega) (le_refl frames.length)
      exact ⟨false, m', frames, by simp [hsame, hdrop], hstacking⟩
    · have hphys' : (allocBlock m).1 = f * 4096 := hphys
      have hnonzero : (allocBlock m).1 ≠ 0 := by omega
      obtain ⟨done, m', frames', hrun, hend⟩ := ih (h.map (by omega) hlent) (by simp; omega)
      refine ⟨done, m', frames', ?_, hend⟩
      rw [length_append, length_singleton] at hrun
      simp only [if_neg hnonzero, hshows.store he' (show frames.length < 8 by omega),
        bind_eq_bind, bind_some]
      rw [hphys']
      exact hrun

theorem slotsFree_shows (h : Shows m kt w pid) (hn : i + n ≤ 8)
    (habsent : ∀ j, j < 8 → ¬present (m.phys kt (w + j))) : slotsFree pid n i m = some true := by
  induction n generalizing i with
  | zero => rfl
  | succ n ih =>
    rw [slotsFree, h.load (Edits.refl m) (by omega)]
    simp only [bind_eq_bind, bind_some]
    rw [if_neg (habsent i (by omega))]
    exact ih (by omega)

theorem freeSlots_stacking (hshows : Shows m₀ kt w pid) (h : Stacking kt w m₀ frames i m)
    (hlength : frames.length = 8) (hn : i + n = 8) :
    ∃ m', freeSlots pid n i m = some m' ∧ Stacking kt w m₀ frames 8 m' := by
  induction n generalizing i m with
  | zero =>
    obtain rfl : i = 8 := hn
    exact ⟨m, rfl, h⟩
  | succ n ih =>
    obtain ⟨m', hrun, hstacking⟩ := ih (h.drop (by omega) hlength.le) (by omega)
    refine ⟨m', ?_, hstacking⟩
    have hpresent : present (m.phys kt (w + i)) := by
      rw [h.mapped i _ le_rfl (getElem?_eq_getElem (by omega)), present_entryFor]
    rw [freeSlots, hshows.load h.edits (by omega)]
    simp only [bind_eq_bind, bind_some]
    rw [if_pos hpresent, hshows.dropSlot h.edits (by omega)]
    exact hrun

theorem allocKernelStack_failed {kd : Nat} (h : StackTable m kt)
    (hzero : Bitmap.test m.pmm.bitmap 0 = true) (hpos : 1 ≤ pid) (hpid : pid ≤ 256)
    (hrun : allocKernelStack kd m pid = some (0, m')) : Restored kt m m' := by
  unfold allocKernelStack at hrun
  by_cases hpresent : present (m.phys kd kstackPdeIdx)
  · rw [if_neg (not_not.mpr hpresent)] at hrun
    rcases lt_or_ge pid 256 with hlt | hge
    · obtain ⟨free, hsearch, hfree⟩ := slotsFree_eq h hlt (show 0 + kstackPages ≤ 8 from le_rfl)
      rw [hsearch] at hrun
      cases free with
      | false =>
        obtain rfl : m = m' := by simpa using hrun
        exact Restored.refl m
      | true =>
        have habsent : ∀ j, j < 8 → ¬present (m.phys kt (stackWord pid + j)) := fun j hj =>
          hfree.mp rfl j (Nat.zero_le j) (show j < 0 + 8 by omega)
        have hne : pid ≠ 128 := by
          rintro rfl
          refine habsent 0 (by decide) ?_
          rw [show stackWord 128 + 0 = 0 from rfl, h.self, present_entryFor]
        obtain ⟨done, m₁, frames, hmap, hend⟩ :=
          mapSlots_stacking (h.shows ((stacked_iff hpos hlt).mpr hne)) hzero (Stacking.start habsent)
            (show 0 + kstackPages = 8 from rfl)
        rw [length_nil] at hmap
        simp only [bind_eq_bind, bind_some, if_true, hmap, some.injEq, Prod.mk.injEq] at hrun
        obtain ⟨hbase, rfl⟩ := hrun
        cases done with
        | false => exact Stacking.restored hend habsent
        | true =>
          rw [if_pos rfl] at hbase
          unfold kstackVaddrBase kstackSize at hbase
          omega
    · -- the first look is into a page that is not there
      obtain rfl : pid = 256 := by omega
      have hload : m.load (slotPtr (kstackSlot 256 0)) = none := by
        unfold Machine.load
        rw [show kstackSlot 256 0 = 2048 from rfl, translate_gap h le_rfl (by decide)]
        rfl
      rw [show kstackPages = 7 + 1 from rfl, slotsFree, hload] at hrun
      cases hrun
  · rw [if_pos hpresent] at hrun
    obtain rfl : m = m' := by simpa using hrun
    exact Restored.refl m

/-- **Kernel stacks.** The stack of a task is mapped whole or not at all, and freeing it undoes the mapping. -/
theorem allocKernelStack_exact (kd : Nat) (hwindow : Window m kt)
    (hzero : Bitmap.test m.pmm.bitmap 0 = true) (hpos : 1 ≤ pid) (hpid : pid ≤ 127)
    (habsent : ∀ i, i < 8 → ¬present (m.phys kt (pid * 8 + i))) :
    ∃ r m', allocKernelStack kd m pid = some (r, m') ∧
      ((r = 0 ∧ Restored kt m m') ∨ r = kstackVaddrBase + pid * kstackSize ∧
          (∃ frames, StackMapped kt (pid * 8) m frames m') ∧
          ∃ m'', freeKernelStack kd m' pid = some m'' ∧ Restored kt m m'') := by
  have hshows := hwindow.shows (show pid < 128 by omega)
  unfold allocKernelStack
  by_cases hpresent : present (m.phys kd kstackPdeIdx)
  · rw [if_neg (not_not.mpr hpresent), slotsFree_shows hshows (show 0 + kstackPages ≤ 8 from le_rfl) habsent]
    obtain ⟨done, m', frames, hrun, hend⟩ :=
      mapSlots_stacking hshows hzero (Stacking.start habsent) (show 0 + kstackPages = 8 from rfl)
    rw [length_nil] at hrun
    simp only [bind_eq_bind, bind_some, if_true, hrun]
    refine ⟨_, m', rfl, ?_⟩
    cases done with
    | false => exact .inl ⟨rfl, Stacking.restored hend habsent⟩
    | true =>
      obtain ⟨hlength, hstacking⟩ := hend
      refine .inr ⟨?_, ⟨frames, hstacking.stackMapped hlength⟩, ?_⟩
      · rw [if_pos rfl]
        unfold kstackVaddrBase kstackSize
        omega
      obtain ⟨m'', hfree, hgone⟩ :=
        freeSlots_stacking hshows hstacking hlength (show 0 + kstackPages = 8 from rfl)
      refine ⟨m'', ?_, Stacking.restored (by rwa [hlength]) habsent⟩
      -- the entry of the kernel's own directory is none of the stack's
      have hstill : m'.phys kd kstackPdeIdx = m.phys kd kstackPdeIdx := by
        by_cases heq : kd = kt
        · subst heq
          refine hstacking.edits.words _ fun hin => ?_
          have hlast : kstackPdeIdx = pid * 8 + 7 := by
            unfold kstackPdeIdx at *
            omega
          exact habsent 7 (by decide) (hlast ▸ hpresent)
        · rw [hstacking.edits.other kd heq]
      unfold freeKernelStack
      rw [hstill, if_neg (not_not.mpr hpresent)]
      exact hfree
  · rw [if_pos hpresent]
    exact ⟨0, m, rfl, .inl ⟨rfl, Restored.refl m⟩⟩

end

/-- A machine with the tables of the kernel and no frame left. -/
def fullMachine : Machine where
  phys := fun f w =>
    if f = 1 ∧ w = 1022 then entryFor 4096 3 else if f = 1 ∧ w = 1023 then entryFor 8192 3 else 0
  pmm := { bitmap := fun _ => 0xFF, usedBlocks := totalBlocks }
  dir := 1
  active := true

/-- The first task gets no stack, and nothing stays mapped. -/
theorem allocKernelStack_exact_full :
    ∃ m', allocKernelStack 1 fullMachine 1 = some (0, m') ∧ Restored 2 fullMachine m' := by
  have hwindow : Window fullMachine 2 :=
    { active := rfl
      dir :=
        { apart := by decide
          window := rfl
          table := rfl } }
  obtain ⟨r, m', hrun, ⟨rfl, hrestored⟩ | ⟨-, ⟨frames, hmapped⟩, -⟩⟩ :=
    allocKernelStack_exact 1 hwindow (test_full 0) (show 1 ≤ 1 by decide) (by decide) (by decide)
  · exact ⟨m', hrun, hrestored⟩
  · cases frames with
    | nil => cases hmapped.length
    | cons f frames =>
      have hfree := (hmapped.lent.fresh f mem_cons_self).2
      exact absurd ((test_full f).symm.trans hfree) (by decide)

end JexOs.Kstack
