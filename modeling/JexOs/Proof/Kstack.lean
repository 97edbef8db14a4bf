import JexOs.Kstack
import JexOs.Proof.PagingInit

/-!
# Kernel stacks: which entries are touched

The table of directory entry 1023 maps itself in its entry 0, so the stack of task `pid` and that of task
`pid - 128` have the same eight entries, and the seven pages behind belong to no stack.
-/

namespace JexOs.Kstack

open Paging Option

/-- Directory `d` has the two entries through which the stack table in frame `kt` is reached. -/
structure Sees (m : Machine) (kt d : Nat) : Prop where
  apart : d ≠ kt
  window : m.phys d 1022 = entryFor (d * 4096) 3
  table : m.phys d 1023 = entryFor (kt * 4096) 3

structure StackTable (m : Machine) (kt : Nat) : Prop where
  active : m.active = true
  dir : Sees m kt m.dir
  self : m.phys kt 0 = entryFor (kt * 4096) 3
  gap : ∀ j, 1 ≤ j → j < 8 → ¬ present (m.phys kt j)

theorem Started.exists_stackTable {m₀ m : Machine} (hs : Started m₀ m) :
    ∃ kt, StackTable m kt ∧ ∀ j, 0 < j → j < 1024 → m.phys kt j = 0 := by
  obtain ⟨f, hpde, hself, hempty⟩ := hs.stackTable
  have hframe : frameOf (m.pde 1023) = f := by rw [hpde, frameOf_entryFor_frame]
  unfold Machine.pte at hself hempty
  rw [hframe] at hself hempty
  refine ⟨f,
    { active := hs.layout.active
      dir :=
        { apart := ?_
          window := hs.layout.recursive
          table := hpde }
      self := hself
      gap := fun j hlow hhigh => ?_ }, hempty⟩
  · have hne := hs.layout.outside 1023 (by decide) (by decide) (by rw [hpde, present_entryFor])
    rw [hframe] at hne
    exact hne.symm
  · rw [hempty j hlow (by omega)]
    decide

/-- Entries `w` to `w + 7` of the stack table may differ, and what the memory manager holds. -/
structure Edits (kt w : Nat) (m m' : Machine) : Prop where
  dir : m'.dir = m.dir
  active : m'.active = m.active
  other : ∀ f, f ≠ kt → m'.phys f = m.phys f
  words : ∀ j, ¬ (w ≤ j ∧ j < w + 8) → m'.phys kt j = m.phys kt j

section

variable {kt kd d w : Nat} {m m' m'' : Machine}

theorem Edits.pmm (m : Machine) (p : Pmm.State) : Edits kt w m { m with pmm := p } :=
  { dir := rfl
    active := rfl
    other := fun _ _ => rfl
    words := fun _ _ => rfl }

theorem Edits.refl (m : Machine) : Edits kt w m m := Edits.pmm m m.pmm

theorem Edits.trans (h : Edits kt w m m') (h' : Edits kt w m' m'') : Edits kt w m m'' :=
  { dir := h'.dir.trans h.dir
    active := h'.active.trans h.active
    other := fun f hf => (h'.other f hf).trans (h.other f hf)
    words := fun j hj => (h'.words j hj).trans (h.words j hj) }

theorem Edits.set (m : Machine) {j : Nat} (hj : w ≤ j ∧ j < w + 8) (v : Nat) : Edits kt w m (m.set kt j v) :=
  { dir := rfl
    active := rfl
    other := fun f hf => Function.update_of_ne hf _ _
    words := fun i hi => by
      have hne : i ≠ j := fun heq => hi (heq ▸ hj)
      simp [Machine.set, hne] }

theorem Sees.edits (h : Sees m kt d) (he : Edits kt w m m') : Sees m' kt d :=
  { apart := h.apart
    window := by rw [he.other d h.apart, h.window]
    table := by rw [he.other d h.apart, h.table] }

theorem StackTable.edits (h : StackTable m kt) (he : Edits kt w m m') (hw : 8 ≤ w) : StackTable m' kt :=
  { active := he.active.trans h.active
    dir := by
      rw [he.dir]
      exact h.dir.edits he
    self := by rw [he.words 0 (by omega), h.self]
    gap := fun j hlow hhigh => by
      rw [he.words j (by omega)]
      exact h.gap j hlow hhigh }

theorem StackTable.pmm (h : StackTable m kt) (p : Pmm.State) : StackTable { m with pmm := p } kt :=
  { active := h.active
    dir := ⟨h.dir.apart, h.dir.window, h.dir.table⟩
    self := h.self
    gap := h.gap }

theorem Sees.present_stacks (h : Sees m kt d) : present (m.phys d 1023) := by
  rw [h.table, present_entryFor]

variable {n i pid : Nat}

theorem slotPtr_eq (hn : n < 9216) : slotPtr n = 0xFFBFF000 + 4 * n := by
  unfold slotPtr kstackPdeIdx ptePtr recursivePdeBase
  omega

theorem translate_window (hactive : m.active = true) (hdir : Sees m kt m.dir)
    (hn : n < 1024) : m.translate (slotPtr n) = some (kt, n) := by
  rw [slotPtr_eq (by omega)]
  unfold Machine.translate
  rw [if_pos hactive]
  have h₁ : (0xFFBFF000 + 4 * n) / 4194304 % 1024 = 1022 := by omega
  have h₂ : (0xFFBFF000 + 4 * n) / 4096 % 1024 = 1023 := by omega
  have h₃ : (0xFFBFF000 + 4 * n) / 4 % 1024 = n := by omega
  simp only [h₁, h₂, h₃, hdir.window, frameOf_entryFor_frame, hdir.table, present_entryFor]
  rfl

theorem translate_slot (h : StackTable m kt)
    (hn : n < 2048) : m.translate (slotPtr n) = some (kt, n % 1024) := by
  rcases lt_or_ge n 1024 with hlow | hhigh
  · rw [translate_window h.active h.dir hlow, Nat.mod_eq_of_lt hlow]
  · rw [slotPtr_eq (by omega)]
    unfold Machine.translate
    rw [if_pos h.active]
    have h₁ : (0xFFBFF000 + 4 * n) / 4194304 % 1024 = 1023 := by omega
    have h₂ : (0xFFBFF000 + 4 * n) / 4096 % 1024 = 0 := by omega
    have h₃ : (0xFFBFF000 + 4 * n) / 4 % 1024 = n % 1024 := by omega
    simp only [h₁, h₂, h₃, h.dir.table, frameOf_entryFor_frame, h.self, present_entryFor]
    rfl

theorem translate_gap (h : StackTable m kt) (hlow : 2048 ≤ n) (hhigh : n < 9216) :
    m.translate (slotPtr n) = none := by
  rw [slotPtr_eq (by omega)]
  unfold Machine.translate
  rw [if_pos h.active]
  have h₁ : (0xFFBFF000 + 4 * n) / 4194304 % 1024 = 1023 := by omega
  have h₂ : (0xFFBFF000 + 4 * n) / 4096 % 1024 = n / 1024 - 1 := by omega
  have hgap := h.gap (n / 1024 - 1) (by omega) (by omega)
  simp only [h₁, h₂, h.dir.table, frameOf_entryFor_frame, present_entryFor, if_neg hgap]
  rfl

def stackWord (pid : Nat) : Nat := pid * 8 % 1024

theorem kstackSlot_eq (hpid : pid ≤ 256) (hi : i < 8) : kstackSlot pid i = pid * 8 + i := by
  unfold kstackSlot kstackPages kstackSize
  omega

theorem kstackSlot_word (hpid : pid ≤ 256) (hi : i < 8) : kstackSlot pid i % 1024 = stackWord pid + i := by
  rw [kstackSlot_eq hpid hi]
  unfold stackWord
  omega

section Slots

variable (h : StackTable m kt) {pid i : Nat} (hpid : pid < 256) (hi : i < 8)

include h hpid hi

theorem load_slot : m.load (slotPtr (kstackSlot pid i)) = some (m.phys kt (stackWord pid + i)) := by
  have hslot := kstackSlot_eq hpid.le hi
  rw [load_of_translate (translate_slot h (by omega)), kstackSlot_word hpid.le hi]

theorem store_slot (v : Nat) :
    m.store (slotPtr (kstackSlot pid i)) v = some (m.set kt (stackWord pid + i) v) := by
  have hslot := kstackSlot_eq hpid.le hi
  rw [store_of_translate (translate_slot h (by omega)), kstackSlot_word hpid.le hi]

theorem dropSlot_edits : ∃ m', dropSlot pid i m = some m' ∧ Edits kt (stackWord pid) m m' := by
  have h' := h.pmm (Pmm.pmmFreeBlock m.pmm (frameOf (m.phys kt (stackWord pid + i)) * 4096))
  unfold dropSlot
  rw [load_slot h hpid hi]
  simp only [bind_eq_bind, bind_some, store_slot h' hpid hi]
  exact ⟨_, rfl, (Edits.pmm _ _).trans (Edits.set _ (by omega) _)⟩

end Slots

def Stacked (pid : Nat) : Prop := pid < 256 ∧ 8 ≤ stackWord pid

theorem stacked_iff (hpos : 1 ≤ pid) (hpid : pid < 256) : Stacked pid ↔ pid ≠ 128 := by
  unfold Stacked stackWord
  omega

section

variable (h : StackTable m kt)

include h

theorem dropSlots_edits (hpid : Stacked pid) (hn : n ≤ 8) :
    ∃ m', dropSlots pid n m = some m' ∧ Edits kt (stackWord pid) m m' := by
  induction n with
  | zero => exact ⟨m, rfl, Edits.refl m⟩
  | succ n ih =>
    obtain ⟨m₁, hrun, hedits⟩ := ih (by omega)
    obtain ⟨m₂, hdrop, hedits'⟩ := dropSlot_edits (h.edits hedits hpid.2) hpid.1 (show n < 8 by omega)
    refine ⟨m₂, ?_, hedits.trans hedits'⟩
    rw [dropSlots, hrun]
    exact hdrop

theorem mapSlots_edits (hpid : Stacked pid) (hi : i + n ≤ 8) :
    ∃ done m', mapSlots pid n i m = some (done, m') ∧ Edits kt (stackWord pid) m m' := by
  induction n generalizing i m with
  | zero => exact ⟨true, m, rfl, Edits.refl m⟩
  | succ n ih =>
    have h' : StackTable (allocBlock m).2 kt := h.pmm _
    have hpmm : Edits kt (stackWord pid) m (allocBlock m).2 := Edits.pmm m _
    rw [mapSlots]
    by_cases hnone : (allocBlock m).1 = 0
    · obtain ⟨m', hdrop, hedits⟩ := dropSlots_edits h' hpid (show i ≤ 8 by omega)
      exact ⟨false, m', by simp [hnone, hdrop], hpmm.trans hedits⟩
    · have hset : Edits kt (stackWord pid) (allocBlock m).2 _ :=
        Edits.set _ (show stackWord pid ≤ stackWord pid + i ∧ stackWord pid + i < stackWord pid + 8
          by omega) (entryFor (allocBlock m).1 3)
      obtain ⟨done, m', hrun, hedits⟩ := ih (h'.edits hset hpid.2) (show i + 1 + n ≤ 8 by omega)
      refine ⟨done, m', ?_, hpmm.trans (hset.trans hedits)⟩
      simp only [if_neg hnone, store_slot h' hpid.1 (show i < 8 by omega), bind_eq_bind, bind_some, hrun]

theorem slotsFree_eq (hpid : pid < 256)
    (hi : i + n ≤ 8) : ∃ free, slotsFree pid n i m = some free ∧ (free = true ↔
      ∀ j, i ≤ j → j < i + n → ¬ present (m.phys kt (stackWord pid + j))) := by
  induction n generalizing i with
  | zero => exact ⟨true, rfl, by simp; omega⟩
  | succ n ih =>
    obtain ⟨free, hrun, hfree⟩ := ih (i := i + 1) (by omega)
    rw [slotsFree, load_slot h hpid (by omega)]
    simp only [bind_eq_bind, bind_some]
    by_cases hpresent : present (m.phys kt (stackWord pid + i))
    · rw [if_pos hpresent]
      refine ⟨false, rfl, ?_⟩
      simp only [Bool.false_eq_true, false_iff]
      exact fun hall => hall i le_rfl (by omega) hpresent
    · rw [if_neg hpresent]
      refine ⟨free, hrun, hfree.trans ⟨fun hall j hlow hhigh => ?_, fun hall j hlow hhigh => ?_⟩⟩
      · obtain rfl | hne := Nat.eq_or_lt_of_le hlow
        · exact hpresent
        · exact hall j hne (by omega)
      · exact hall j (by omega) (by omega)

structure KeepsTable (kt : Nat) (m m' : Machine) : Prop where
  dir : m'.dir = m.dir
  table : StackTable m' kt
  sees : ∀ d, Sees m kt d → Sees m' kt d

theorem KeepsTable.refl : KeepsTable kt m m := ⟨rfl, h, fun _ hd => hd⟩

omit h in
theorem KeepsTable.trans (h : KeepsTable kt m m') (h' : KeepsTable kt m' m'') : KeepsTable kt m m'' :=
  ⟨h'.dir.trans h.dir, h'.table, fun d hd => h'.sees d (h.sees d hd)⟩

omit h in
theorem Edits.keeps (he : Edits kt w m m') (h : StackTable m kt) (hw : 8 ≤ w) : KeepsTable kt m m' :=
  ⟨he.dir, h.edits he hw, fun _ hd => hd.edits he⟩

def stackBase (pid : Nat) : Nat := (kstackVaddrBase + pid * kstackSize) % 2 ^ 32

omit h in
theorem allocKernelStack_spec (kd : Nat) (h : StackTable m kt) (hpos : 1 ≤ pid) (hpid : pid < 256) :
    ∃ r m', allocKernelStack kd m pid = some (r, m') ∧
      (r = 0 ∨ pid ≠ 128 ∧ r = stackBase pid) ∧ KeepsTable kt m m' := by
  unfold allocKernelStack
  by_cases hpresent : present (m.phys kd kstackPdeIdx)
  · rw [if_neg (not_not.mpr hpresent)]
    obtain ⟨free, hrun, hfree⟩ := slotsFree_eq h hpid (show 0 + kstackPages ≤ 8 from le_rfl)
    rw [hrun]
    cases free with
    | false => exact ⟨0, m, rfl, .inl rfl, KeepsTable.refl h⟩
    | true =>
      have hne : pid ≠ 128 := by
        rintro rfl
        -- its first entry is the one with which the table maps itself
        refine hfree.mp rfl 0 le_rfl (by decide) ?_
        rw [show stackWord 128 + 0 = 0 from rfl, h.self, present_entryFor]
      have hstacked := (stacked_iff hpos hpid).mpr hne
      obtain ⟨done, m', hmap, hedits⟩ := mapSlots_edits h hstacked (show 0 + kstackPages ≤ 8 from le_rfl)
      simp only [bind_eq_bind, bind_some, if_true, hmap]
      refine ⟨_, m', rfl, ?_, hedits.keeps h hstacked.2⟩
      cases done with
      | false => exact .inl rfl
      | true => exact .inr ⟨hne, rfl⟩
  · rw [if_pos hpresent]
    exact ⟨0, m, rfl, .inl rfl, KeepsTable.refl h⟩

theorem allocKernelStack_fault (hkd : Sees m kt kd) : allocKernelStack kd m 256 = none := by
  unfold allocKernelStack
  have hpresent : present (m.phys kd kstackPdeIdx) := hkd.present_stacks
  rw [if_neg (not_not.mpr hpresent)]
  have hslot : kstackSlot 256 0 = 2048 := rfl
  have hload : m.load (slotPtr (kstackSlot 256 0)) = none := by
    unfold Machine.load
    rw [hslot, translate_gap h le_rfl (by decide)]
    rfl
  have hsearch : slotsFree 256 kstackPages 0 m = none := by
    rw [show kstackPages = 7 + 1 from rfl, slotsFree, hload]
    rfl
  rw [hsearch]
  rfl

theorem freeSlots_edits (hpid : Stacked pid) (hi : i + n ≤ 8) :
    ∃ m', freeSlots pid n i m = some m' ∧ Edits kt (stackWord pid) m m' := by
  induction n generalizing i m with
  | zero => exact ⟨m, rfl, Edits.refl m⟩
  | succ n ih =>
    rw [freeSlots, load_slot h hpid.1 (by omega)]
    simp only [bind_eq_bind, bind_some]
    by_cases hpresent : present (m.phys kt (stackWord pid + i))
    · obtain ⟨m₁, hdrop, hedits⟩ := dropSlot_edits h hpid.1 (show i < 8 by omega)
      obtain ⟨m₂, hrun, hedits'⟩ := ih (h.edits hedits hpid.2) (show i + 1 + n ≤ 8 by omega)
      refine ⟨m₂, ?_, hedits.trans hedits'⟩
      rw [if_pos hpresent, hdrop]
      exact hrun
    · obtain ⟨m₂, hrun, hedits⟩ := ih h (show i + 1 + n ≤ 8 by omega)
      refine ⟨m₂, ?_, hedits⟩
      rw [if_neg hpresent]
      exact hrun

end

theorem freeKernelStack_spec (kd : Nat) (h : StackTable m kt) (hpid : Stacked pid) :
    ∃ m', freeKernelStack kd m pid = some m' ∧ KeepsTable kt m m' := by
  unfold freeKernelStack
  by_cases hpresent : present (m.phys kd kstackPdeIdx)
  · rw [if_neg (not_not.mpr hpresent)]
    obtain ⟨m', hrun, hedits⟩ := freeSlots_edits h hpid (show 0 + kstackPages ≤ 8 from le_rfl)
    exact ⟨m', hrun, hedits.keeps h hpid.2⟩
  · rw [if_pos hpresent]
    exact ⟨m, rfl, KeepsTable.refl h⟩

end

end JexOs.Kstack
