import JexOs.Proof.Paging

/-!
# `init_paging`

The first 128 tables are built while paging is off. If the memory manager runs out before that, the kernel halts,
so a machine that comes out of `init_paging` has all of them.
-/

namespace JexOs.Paging

open Pmm (Booted Taken freeBelow kernelPages totalBlocks)
open Option Function

section Inactive

variable {m : Machine} (hinactive : m.active = false)

include hinactive

variable {w p : Nat}

theorem store_inactive (f : Nat) (hw : w < 1024)
    (v : Nat) : m.store (f * 4096 + 4 * w) v = some (m.set f w v) :=
  store_of_translate ((direct_of_inactive hinactive f).translate hw)

theorem load_inactive (f : Nat) (hw : w < 1024) : m.load (f * 4096 + 4 * w) = some (m.phys f w) :=
  load_of_translate ((direct_of_inactive hinactive f).translate hw)

theorem tablePointer_inactive (i tableAddr : Nat) :
    tablePointer m (currentPageDir m) i tableAddr = some (tableAddr, m) := by
  simp [tablePointer, hinactive]

theorem mapPage_inactive_present (hp : p < 131072) (hpresent : present (m.pde (p / 1024)))
    (hne : frameOf (m.pde (p / 1024)) ≠ 0) : mapPage m (p * 4096) (p * 4096) 3 =
      some (0, m.set (frameOf (m.pde (p / 1024))) (p % 1024) (entryFor (p * 4096) 3)) := by
  have htable : p * 4096 / 4194304 = p / 1024 := by omega
  have hpage : p * 4096 / 4096 % 1024 = p % 1024 := by omega
  have hload : m.load (currentPageDir m + 4 * (p / 1024)) = some (m.pde (p / 1024)) :=
    load_inactive hinactive m.dir (by omega)
  have hstore := store_inactive hinactive (frameOf (m.pde (p / 1024))) (w := p % 1024)
    (Nat.mod_lt _ (by decide)) (entryFor (p * 4096) 3)
  rw [Nat.mul_comm 4] at hstore
  have hkernel : ¬ (userBit 3 ∧ ¬ userBit (m.pde (p / 1024))) := by
    rintro ⟨huser, -⟩
    exact absurd huser (by decide)
  have haddr : frameOf (m.pde (p / 1024)) * 4096 ≠ 0 := by omega
  unfold mapPage mapPageIn getTableIn
  rw [htable, hpage, hload]
  simp only [bind_eq_bind, bind_some, if_pos hpresent, if_neg hkernel,
    tablePointer_inactive hinactive, if_neg haddr, hstore]

theorem mapPage_inactive_full (hp : p < 131072) (habsent : ¬ present (m.pde (p / 1024)))
    (hfull : Pmm.pmmAllocBlock m.pmm = (0, m.pmm)) : mapPage m (p * 4096) (p * 4096) 3 = some (enomem, m) := by
  have htable : p * 4096 / 4194304 = p / 1024 := by omega
  have hload : m.load (currentPageDir m + 4 * (p / 1024)) = some (m.pde (p / 1024)) :=
    load_inactive hinactive m.dir (by omega)
  unfold mapPage mapPageIn getTableIn
  rw [htable, hload]
  simp only [bind_eq_bind, bind_some, if_neg habsent, allocBlock, hfull, if_true]

theorem mapPage_inactive_absent {f : Nat} (hp : p < 131072) (hfirst : p % 1024 = 0)
    (habsent : ¬ present (m.pde (p / 1024))) (hf : f ≠ 0)
    (halloc : Pmm.pmmAllocBlock m.pmm = (f * 4096, m.pmm.markUsed f)) : mapPage m (p * 4096) (p * 4096) 3 =
      some (0, ((fill m f (selfMapped f (m.phys f))).set m.dir (p / 1024)
        (entryFor (f * 4096) 3)).set f 0 (entryFor (p * 4096) 3)) := by
  have htable : p * 4096 / 4194304 = p / 1024 := by omega
  have hpage : p * 4096 / 4096 % 1024 = 0 := by omega
  have hload : m.load (currentPageDir m + 4 * (p / 1024)) = some (m.pde (p / 1024)) :=
    load_inactive hinactive m.dir (by omega)
  have haddr : f * 4096 ≠ 0 := by omega
  have hdirect : Direct { m with pmm := m.pmm.markUsed f } f := direct_of_inactive hinactive f
  have hzero := zeroPage_direct hdirect
  have hself := store_self_direct hdirect
  have hunmap : identityUnmapFrame (fill m f (selfMapped f (m.phys f))) (f * 4096) =
      some (fill m f (selfMapped f (m.phys f))) := by
    have hoff : (fill m f (selfMapped f (m.phys f))).active = false := hinactive
    simp [identityUnmapFrame, hoff]
  have hdir : (fill m f (selfMapped f (m.phys f))).store (currentPageDir m + 4 * (p / 1024))
      (entryFor (f * 4096) 3) = some ((fill m f (selfMapped f (m.phys f))).set m.dir (p / 1024)
        (entryFor (f * 4096) 3)) :=
    store_inactive (m := fill m f (selfMapped f (m.phys f))) hinactive m.dir (by omega) _
  have hpointer : tablePointer ((fill m f (selfMapped f (m.phys f))).set m.dir (p / 1024)
      (entryFor (f * 4096) 3)) (currentPageDir m) (p / 1024) (f * 4096) =
      some (f * 4096, (fill m f (selfMapped f (m.phys f))).set m.dir (p / 1024)
        (entryFor (f * 4096) 3)) :=
    tablePointer_inactive (m := (fill m f (selfMapped f (m.phys f))).set m.dir (p / 1024)
      (entryFor (f * 4096) 3)) hinactive (p / 1024) (f * 4096)
  have hstore := store_inactive (m := (fill m f (selfMapped f (m.phys f))).set m.dir
    (p / 1024) (entryFor (f * 4096) 3)) hinactive f (w := 0) (by decide) (entryFor (p * 4096) 3)
  unfold fill at *
  unfold mapPage mapPageIn getTableIn
  rw [htable, hpage, hload]
  simp only [bind_eq_bind, bind_some, if_neg habsent, allocBlock, halloc, if_neg haddr,
    hzero, hself, hunmap, hdir, hpointer, hstore]

end Inactive

structure Building (m₀ m : Machine) (p : Nat) : Prop where
  inactive : m.active = false
  dir : m.dir = m₀.dir
  dirLow : m.dir < kernelPages
  taken : Taken m₀.pmm m.pmm ((p + 1023) / 1024)
  started : ∀ i, i * 1024 < p → ∃ f, m.pde i = entryFor (f * 4096) 3 ∧ kernelPages ≤ f ∧
    f < totalBlocks ∧ Bitmap.test m.pmm.bitmap f = true
  unstarted : ∀ i, i < 1024 → p ≤ i * 1024 → m.pde i = 0
  apart : ∀ i j, i * 1024 < p → j * 1024 < p → frameOf (m.pde i) = frameOf (m.pde j) → i = j
  page : ∀ f, f < p → m.pte (f / 1024) (f % 1024) = entryFor (f * 4096) 3

section Loop

variable {m₀ m : Machine} {p : Nat} (hb : Building m₀ m p)

include hb

theorem Building.table {i : Nat} (hi : i * 1024 < p) :
    present (m.pde i) ∧ kernelPages ≤ frameOf (m.pde i) ∧ frameOf (m.pde i) < totalBlocks ∧
      Bitmap.test m.pmm.bitmap (frameOf (m.pde i)) = true := by
  obtain ⟨f, hpde, hlow, hhigh, hset⟩ := hb.started i hi
  rw [hpde, frameOf_entryFor_frame, present_entryFor]
  exact ⟨rfl, hlow, hhigh, hset⟩

theorem Building.next_page (hinner : p % 1024 ≠ 0) :
    Building m₀ (m.set (frameOf (m.pde (p / 1024))) (p % 1024) (entryFor (p * 4096) 3)) (p + 1) := by
  obtain ⟨hpresent, hlow, hhigh, hset⟩ := hb.table (i := p / 1024) (by omega)
  have hdirLow := hb.dirLow
  have hpde : ∀ k, (m.set (frameOf (m.pde (p / 1024))) (p % 1024) (entryFor (p * 4096) 3)).pde k =
      m.pde k := Machine.pde_setFrame (by omega)
  have hsame : ∀ i, i * 1024 < p + 1 ↔ i * 1024 < p := by
    intro i
    omega
  refine
    { inactive := hb.inactive
      dir := hb.dir
      dirLow := hb.dirLow
      taken := ?_
      started := ?_
      unstarted := ?_
      apart := ?_
      page := ?_ }
  · rw [show (p + 1 + 1023) / 1024 = (p + 1023) / 1024 by omega]
    exact hb.taken
  · intro i hi
    rw [hpde]
    exact hb.started i ((hsame i).mp hi)
  · intro i hi hp
    rw [hpde]
    exact hb.unstarted i hi (by omega)
  · intro i j hi hj heq
    rw [hpde, hpde] at heq
    exact hb.apart i j ((hsame i).mp hi) ((hsame j).mp hj) heq
  · intro f hf
    unfold Machine.pte
    rw [hpde, Machine.set_eq_setFrame]
    by_cases htable : f / 1024 = p / 1024
    · rw [htable, Machine.phys_setFrame_same]
      by_cases hlast : f = p
      · rw [hlast, update_self]
      · have hword : f % 1024 ≠ p % 1024 := by omega
        rw [update_of_ne hword, ← htable]
        exact hb.page f (by omega)
    · have hne : frameOf (m.pde (f / 1024)) ≠ frameOf (m.pde (p / 1024)) :=
        fun heq => htable (hb.apart _ _ (by omega) (by omega) heq)
      rw [Machine.phys_setFrame_of_ne hne]
      exact hb.page f (by omega)

theorem Building.next_table (hfirst : p % 1024 = 0) {f : Nat}
    (hf : f < totalBlocks) (hclear : Bitmap.test m.pmm.bitmap f = false)
    (htaken : Taken m₀.pmm (m.pmm.markUsed f) ((p + 1023) / 1024 + 1)) :
    Building m₀ (((fill m f (selfMapped f (m.phys f))).set m.dir (p / 1024)
      (entryFor (f * 4096) 3)).set f 0 (entryFor (p * 4096) 3)) (p + 1) := by
  have hbelow : ∀ i, i * 1024 < p + 1 → i ≠ p / 1024 → i * 1024 < p := by
    intro i hi hne
    omega
  have hlow := hb.taken.booted.kernelPages_le hclear
  have hdirLow := hb.dirLow
  have hne : f ≠ m.dir := by omega
  generalize hnext : ((fill m f (selfMapped f (m.phys f))).set m.dir (p / 1024)
      (entryFor (f * 4096) 3)).set f 0 (entryFor (p * 4096) 3) = m'
  have hpde : ∀ k, m'.pde k = Function.update m.pde (p / 1024) (entryFor (f * 4096) 3) k := by
    intro k
    have hdir : (fill m f (selfMapped f (m.phys f))).pde = m.pde :=
      funext (Machine.pde_setFrame (m := { m with pmm := m.pmm.markUsed f }) hne)
    subst hnext
    rw [← hdir]
    exact (Machine.pde_setFrame (m := (fill m f (selfMapped f (m.phys f))).set m.dir _ _) hne k).trans
      (Machine.pde_set_dir (fill m f (selfMapped f (m.phys f))) _ _ k)
  have hother : ∀ g, g ≠ f → g ≠ m.dir → m'.phys g = m.phys g := by
    intro g hgf hgd
    subst hnext
    rw [Machine.set_eq_setFrame, Machine.phys_setFrame_of_ne hgf, Machine.set_eq_setFrame,
      Machine.phys_setFrame_of_ne hgd]
    exact Machine.phys_setFrame_of_ne hgf
  have hzero : m'.phys f 0 = entryFor (p * 4096) 3 := by
    subst hnext
    rw [Machine.set_eq_setFrame, Machine.phys_setFrame_same, update_self]
  have hbit : ∀ g, Bitmap.test m'.pmm.bitmap g = (decide (g = f) || Bitmap.test m.pmm.bitmap g) := by
    intro g
    subst hnext
    exact Bitmap.test_set m.pmm.bitmap f g
  have hnew : m'.pde (p / 1024) = entryFor (f * 4096) 3 := by
    rw [hpde, update_self]
  have hold : ∀ i, i ≠ p / 1024 → m'.pde i = m.pde i := by
    intro i hi
    rw [hpde, update_of_ne hi]
  have holdFrame : ∀ i, i * 1024 < p → frameOf (m.pde i) ≠ f := by
    intro i hi heq
    rw [← heq, (hb.table hi).2.2.2] at hclear
    cases hclear
  refine
    { inactive := hnext ▸ hb.inactive
      dir := hnext ▸ hb.dir
      dirLow := hnext ▸ hb.dirLow
      taken := ?_
      started := ?_
      unstarted := ?_
      apart := ?_
      page := ?_ }
  · rw [show (p + 1 + 1023) / 1024 = (p + 1023) / 1024 + 1 by omega]
    exact hnext ▸ htaken
  · intro i hi
    by_cases heq : i = p / 1024
    · exact ⟨f, by rw [heq, hnew], hlow, hf, by rw [hbit, decide_eq_true rfl, Bool.true_or]⟩
    · obtain ⟨g, hg, hglow, hghigh, hgset⟩ := hb.started i (hbelow i hi heq)
      exact ⟨g, by rw [hold i heq, hg], hglow, hghigh, by rw [hbit, hgset, Bool.or_true]⟩
  · intro i hi hpi
    rw [hold i (by omega)]
    exact hb.unstarted i hi (by omega)
  · intro i j hi hj heq
    by_cases hie : i = p / 1024
    · by_cases hje : j = p / 1024
      · rw [hie, hje]
      · rw [hie, hnew, frameOf_entryFor_frame, hold j hje] at heq
        exact absurd heq.symm (holdFrame j (hbelow j hj hje))
    · rw [hold i hie] at heq
      by_cases hje : j = p / 1024
      · rw [hje, hnew, frameOf_entryFor_frame] at heq
        exact absurd heq (holdFrame i (hbelow i hi hie))
      · rw [hold j hje] at heq
        exact hb.apart i j (hbelow i hi hie) (hbelow j hj hje) heq
  · intro g hg
    unfold Machine.pte
    by_cases hlast : g = p
    · rw [hlast, hnew, frameOf_entryFor_frame, hfirst, hzero]
    · have htable := hb.table (i := g / 1024) (by omega)
      rw [hold (g / 1024) (by omega), hother _ (holdFrame _ (by omega)) (by omega)]
      exact hb.page g (by omega)

theorem Building.step (hp : p < 131072) :
    (∃ m', mapPage m (p * 4096) (p * 4096) 3 = some (0, m') ∧ Building m₀ m' (p + 1)) ∨
      (p % 1024 = 0 ∧ freeBelow m₀.pmm totalBlocks ≤ (p + 1023) / 1024 ∧
      Pmm.pmmAllocBlock m.pmm = (0, m.pmm)) := by
  by_cases hfirst : p % 1024 = 0
  · have habsent : ¬ present (m.pde (p / 1024)) := by
      rw [hb.unstarted (p / 1024) (by omega) (by omega)]
      decide
    obtain hfull | ⟨f, hf, -, -, hclear, halloc, htaken⟩ := hb.taken.alloc
    · exact .inr ⟨hfirst, hfull⟩
    · have hlow : 512 ≤ f := hb.taken.booted.kernelPages_le hclear
      exact .inl ⟨_, mapPage_inactive_absent hb.inactive hp hfirst habsent (by omega) halloc,
        hb.next_table hfirst hf hclear htaken⟩
  · obtain ⟨hpresent, hlow, -, -⟩ := hb.table (i := p / 1024) (by omega)
    have hkernel : kernelPages = 512 := by decide
    exact .inl ⟨_, mapPage_inactive_present hb.inactive hp hpresent (by omega), hb.next_page hfirst⟩

theorem Building.stalled (hfirst : p % 1024 = 0)
    (hfull : Pmm.pmmAllocBlock m.pmm = (0, m.pmm)) (n q : Nat) (hpq : p ≤ q)
    (hq : q + n ≤ 131072) : identityMap n q m = some m := by
  induction n generalizing q with
  | zero => rfl
  | succ n ih =>
    have habsent : ¬ present (m.pde (q / 1024)) := by
      rw [hb.unstarted (q / 1024) (by omega) (by omega)]
      decide
    rw [identityMap, mapPage_inactive_full hb.inactive (by omega) habsent hfull]
    exact ih (q + 1) (by omega) (by omega)

end Loop

variable {m₀ m : Machine}

theorem identityMap_run {p : Nat} (n : Nat) (hb : Building m₀ m p) (hp : p + n ≤ 131072) :
    ∃ m', identityMap n p m = some m' ∧
      (Building m₀ m' (p + n) ∨ (m'.active = false ∧ freeBelow m₀.pmm totalBlocks ≤ 128 ∧
        Pmm.pmmAllocBlock m'.pmm = (0, m'.pmm))) := by
  induction n generalizing p m with
  | zero => exact ⟨m, rfl, .inl hb⟩
  | succ n ih =>
    obtain ⟨m', hmap, hb'⟩ | ⟨hfirst, hfree, hfull⟩ := hb.step (by omega)
    · obtain ⟨m'', hrun, hend⟩ := ih hb' (by omega)
      rw [show p + 1 + n = p + (n + 1) by omega] at hend
      refine ⟨m'', ?_, hend⟩
      rw [identityMap, hmap]
      exact hrun
    · exact ⟨m, hb.stalled hfirst hfull (n + 1) p le_rfl hp, .inr ⟨hb.inactive, by omega, hfull⟩⟩

def activate (m : Machine) : Machine :=
  { m.set m.dir 1022 (entryFor (m.dir * 4096) 3) with active := true }

section Activate

variable {m₀ m : Machine} (hb : Building m₀ m 131072)

theorem activate_pde (k : Nat) :
    (activate m).pde k = Function.update m.pde 1022 (entryFor (m.dir * 4096) 3) k := by
  rw [← Machine.pde_set_dir]
  rfl

variable {i f : Nat}

theorem activate_pde_low (hi : i < 128) : (activate m).pde i = m.pde i := by
  rw [activate_pde, update_of_ne (by omega)]

include hb

theorem activate_pde_high (hi : i < 1024) (hlow : ¬ i < 128) (hne : i ≠ 1022) : (activate m).pde i = 0 := by
  rw [activate_pde, update_of_ne hne]
  exact hb.unstarted i hi (by omega)

theorem activate_pte (hi : i < 128) (j : Nat) : (activate m).pte i j = m.pte i j := by
  have hdirLow := hb.dirLow
  obtain ⟨-, hlow, -, -⟩ := hb.table (i := i) (by omega)
  unfold Machine.pte
  rw [activate_pde_low hi]
  exact congrFun (Machine.phys_setFrame_of_ne (by omega)) j

theorem activate_layout : Layout (activate m) := by
  have hlow : ∀ i, i < 1024 → i ≠ 1022 → present ((activate m).pde i) → i < 128 := by
    intro i hi hne hpresent
    by_contra hhigh
    rw [activate_pde_high hb hi hhigh hne] at hpresent
    exact absurd hpresent (by decide)
  refine
    { active := rfl
      recursive := by rw [activate_pde, update_self]; rfl
      dirTaken := ⟨lt_trans hb.dirLow (by decide), hb.taken.booted.kernel m.dir hb.dirLow⟩
      booted := hb.taken.booted
      low := ?_
      outside := ?_
      table := ?_
      apart := ?_
      absent := ?_ }
  · intro i hi
    rw [activate_pde_low hi]
    exact (hb.table (by omega)).1
  · intro i hi hne hpresent
    have hi128 := hlow i hi hne hpresent
    have htable := (hb.table (i := i) (by omega)).2.1
    have hdirLow : (activate m).dir < kernelPages := hb.dirLow
    rw [activate_pde_low hi128]
    omega
  · intro i hi hne hpresent
    have hi128 := hlow i hi hne hpresent
    rw [activate_pde_low hi128]
    exact (hb.table (by omega)).2
  · intro i j hi hj hine hjne hip hjp heq
    have hi128 := hlow i hi hine hip
    have hj128 := hlow j hj hjne hjp
    rw [activate_pde_low hi128, activate_pde_low hj128] at heq
    exact hb.apart i j (by omega) (by omega) heq
  · intro i hi habsent
    have hhigh : ¬ i < 128 := by
      intro hlt
      rw [activate_pde_low hlt] at habsent
      exact habsent (hb.table (by omega)).1
    have hne : i ≠ 1022 := by
      rintro rfl
      rw [activate_pde, update_self, present_entryFor] at habsent
      exact habsent rfl
    exact activate_pde_high hb hi hhigh hne

theorem activate_page (hf : f < 131072) : (activate m).pte (f / 1024) (f % 1024) = entryFor (f * 4096) 3 := by
  rw [activate_pte hb (by omega)]
  exact hb.page f hf

theorem activate_intact (hf : f < 131072) : Intact (activate m) f :=
  { range := by omega
    table := by
      rw [activate_pde_low (by omega)]
      exact (hb.table (by omega)).1
    page := by rw [activate_page hb hf, present_entryFor]
    frame := by rw [activate_page hb hf, frameOf_entryFor_frame] }

end Activate

/-- What `init_paging` leaves: no user page, and the identity pages of the kernel's frames and of
all frames that are still free. -/
structure Started (m₀ m : Machine) : Prop where
  layout : Layout m
  dir : m.dir = m₀.dir
  dirLow : m.dir < kernelPages
  taken : Taken m₀.pmm m.pmm 129
  kernelPde : ∀ i, i < 1024 → ¬ userBit (m.pde i)
  kernelPte : ∀ i, i < 1024 → present (m.pde i) → ∀ j, j < 1024 → ¬ userBit (m.pte i j)
  intact : ∀ f, f < totalBlocks →
    f < kernelPages ∨ Bitmap.test m.pmm.bitmap f = false → Intact m f
  stackTable : ∃ f, m.pde 1023 = entryFor (f * 4096) 3 ∧ m.pte 1023 0 = entryFor (f * 4096) 3 ∧
    ∀ j, 0 < j → j < 1024 → m.pte 1023 j = 0

def enterStackTable (m : Machine) (f : Nat) : Machine :=
  (fill m f (selfMapped f (m.phys f))).set m.dir 1023 (entryFor (f * 4096) 3)

def withStackTable (m : Machine) (f : Nat) : Machine := unmapIdentity (enterStackTable m f) f

section StackTable

variable {m : Machine} {f : Nat} (hm : Layout m) (hf : f < totalBlocks)
  (hclear : Bitmap.test m.pmm.bitmap f = false)

include hm hf hclear

theorem enterStackTable_layout : Layout (enterStackTable m f) := by
  have hmarked := Bitmap.test_set m.pmm.bitmap f f
  rw [decide_eq_true rfl, Bool.true_or] at hmarked
  refine (hm.fill hf hclear _).enter (by decide) rfl (hm.booted.kernelPages_le hclear) hf
    (hm.ne_dir_of_clear hclear) hmarked ?_
  intro k hk hne _ hpresent
  rw [hm.fill_pde hclear] at hpresent ⊢
  exact hm.table_ne_of_clear hclear hk hne hpresent

theorem initKstackTable_eq (hdir : Intact m m.dir) (hintact : Intact m f)
    (halloc : Pmm.pmmAllocBlock m.pmm = (f * 4096, m.pmm.markUsed f)) :
    initKstackTable m = some (withStackTable m f) := by
  have hlow : 512 ≤ f := hm.booted.kernelPages_le hclear
  have haddr : f * 4096 ≠ 0 := by omega
  have hdirect : Direct { m with pmm := m.pmm.markUsed f } f := hm.direct hclear hintact
  have hentered : (fill m f (selfMapped f (m.phys f))).store (currentPageDir m + 4 * kstackPdeIdx)
      (entryFor (f * 4096) 3) =
      some (enterStackTable m f) :=
    (hm.fill hf hclear _).store_pde (hm.fill_intact hclear _ hdir) (by decide) _
  have hunmap := (enterStackTable_layout hm hf hclear).identityUnmapFrame hf
  unfold initKstackTable allocBlock
  simp only [halloc, if_neg haddr, zeroPage_direct hdirect, bind_eq_bind, bind_some,
    store_self_direct hdirect]
  exact (congrArg (Option.bind · fun m => identityUnmapFrame m (f * 4096)) hentered).trans hunmap

omit hf in
theorem enterStackTable_pde (k : Nat) : (enterStackTable m f).pde k =
      Function.update m.pde 1023 (entryFor (f * 4096) 3) k := by
  have hset := Machine.pde_set_dir (fill m f (selfMapped f (m.phys f))) 1023 (entryFor (f * 4096) 3) k
  rw [funext (hm.fill_pde hclear (selfMapped f (m.phys f)))] at hset
  exact hset

theorem withStackTable_pde (k : Nat) :
    (withStackTable m f).pde k = Function.update m.pde 1023 (entryFor (f * 4096) 3) k := by
  have htotal := Pmm.totalBlocks_eq
  have hentered := enterStackTable_layout hm hf hclear
  rw [← enterStackTable_pde hm hclear]
  exact hentered.set_table_pde (i := f / 1024) (by omega) (by omega) (hentered.low _ (by omega)) _ _ k

theorem withStackTable_pte {i : Nat} (hi : i < 1022) (hpresent : present (m.pde i)) (j : Nat) :
    (withStackTable m f).pte i j = if i = f / 1024 ∧ j = f % 1024 then m.pte i j / 2 * 2 else m.pte i j := by
  have htotal := Pmm.totalBlocks_eq
  have hentered := enterStackTable_layout hm hf hclear
  have hold : ∀ i, i < 1022 → present (m.pde i) → ∀ j,
      (enterStackTable m f).pte i j =
        m.pte i j := by
    intro i hi hpresent j
    have hne : frameOf (m.pde i) ≠ m.dir := hm.outside i (by omega) (by omega) hpresent
    have hfresh := hm.table_ne_of_clear hclear (k := i) (by omega) (by omega) hpresent
    unfold Machine.pte
    rw [enterStackTable_pde hm hclear, update_of_ne (by omega)]
    calc (enterStackTable m f).phys (frameOf (m.pde i)) j
        = (fill m f (selfMapped f (m.phys f))).phys (frameOf (m.pde i)) j :=
          congrFun (Machine.phys_setFrame_of_ne hne) j
      _ = m.phys (frameOf (m.pde i)) j := congrFun (Machine.phys_setFrame_of_ne hfresh) j
  have hcurrent : present ((enterStackTable m f).pde i) := by
    rw [enterStackTable_pde hm hclear, update_of_ne (by omega)]
    exact hpresent
  unfold withStackTable unmapIdentity
  rw [hentered.pte_set_table (i := f / 1024) (by omega) (by omega) (by omega) (by omega)
    (hentered.low _ (by omega))
    hcurrent, hold i hi hpresent, hold (f / 1024) (by omega) (hm.low _ (by omega))]
  by_cases hcell : i = f / 1024 ∧ j = f % 1024
  · rw [if_pos hcell, if_pos hcell, hcell.1, hcell.2]
  · rw [if_neg hcell, if_neg hcell]

theorem withStackTable_pte_stack (j : Nat) : (withStackTable m f).pte 1023 j = selfMapped f (m.phys f) j := by
  have htotal := Pmm.totalBlocks_eq
  have hentered := enterStackTable_layout hm hf hclear
  have hdir : f ≠ m.dir := fun heq => hm.not_structural_of_clear hclear (.inl heq)
  have hnew : (enterStackTable m f).pde 1023
      = entryFor (f * 4096) 3 := by
    rw [enterStackTable_pde hm hclear, update_self]
  unfold withStackTable unmapIdentity
  rw [hentered.pte_set_table (i := f / 1024) (by omega) (by omega) (by omega) (by omega)
    (hentered.low _ (by omega))
    (by rw [hnew, present_entryFor]), if_neg (by omega)]
  unfold Machine.pte
  rw [hnew, frameOf_entryFor_frame]
  calc (enterStackTable m f).phys f j
      = (fill m f (selfMapped f (m.phys f))).phys f j :=
        congrFun (Machine.phys_setFrame_of_ne hdir) j
    _ = selfMapped f (m.phys f) j := congrFun (Machine.phys_setFrame_same _ _ _) j

end StackTable

theorem not_userBit_entryFor_kernel (phys : Nat) : ¬ userBit (entryFor phys 3) := by
  rw [userBit_entryFor]
  decide

theorem userBit_half (entry : Nat) : userBit (entry / 2 * 2) ↔ userBit entry := by
  unfold userBit
  omega

theorem not_userBit_selfMapped (f : Nat) (old : Nat → Nat) {j : Nat} (hj : j < 1024) :
    ¬ userBit (selfMapped f old j) := by
  unfold selfMapped
  by_cases hzero : j = 0
  · rw [hzero, update_self]
    exact not_userBit_entryFor_kernel _
  · rw [update_of_ne hzero, firstWords_of_lt hj]
    decide

theorem started_of_building {f : Nat} (hb : Building m₀ m 131072)
    (hf : f < totalBlocks) (hclear : Bitmap.test m.pmm.bitmap f = false)
    (htaken : Taken m₀.pmm (m.pmm.markUsed f) 129) : Started m₀ (withStackTable (activate m) f) := by
  have htotal := Pmm.totalBlocks_eq
  have hm := activate_layout hb
  have hlow : kernelPages ≤ f := hm.booted.kernelPages_le hclear
  have hpde := withStackTable_pde hm hf hclear
  have hkernelPde : ∀ i, i < 1024 → ¬ userBit ((withStackTable (activate m) f).pde i) := by
    intro i hi
    rw [hpde]
    by_cases hstack : i = 1023
    · rw [hstack, update_self]
      exact not_userBit_entryFor_kernel _
    · rw [update_of_ne hstack]
      by_cases hrec : i = 1022
      · rw [hrec, hm.recursive]
        exact not_userBit_entryFor_kernel _
      · by_cases hi128 : i < 128
        · obtain ⟨g, hg, -⟩ := hb.started i (by omega)
          rw [activate_pde_low hi128, hg]
          exact not_userBit_entryFor_kernel _
        · rw [activate_pde_high hb hi hi128 hrec]
          decide
  have hlayout : Layout (withStackTable (activate m) f) :=
    (enterStackTable_layout hm hf hclear).unmapIdentity hf
  refine
    { layout := hlayout
      dir := hb.dir
      dirLow := hb.dirLow
      taken := htaken
      kernelPde := hkernelPde
      kernelPte := ?_
      intact := ?_
      stackTable := ⟨f, ?_, ?_, ?_⟩ }
  · intro i hi hpresent j hj
    by_cases hstack : i = 1023
    · rw [hstack, withStackTable_pte_stack hm hf hclear]
      exact not_userBit_selfMapped f _ hj
    · rw [hpde, update_of_ne hstack] at hpresent
      by_cases hrec : i = 1022
      · rw [hrec, hlayout.pte_recursive]
        exact hkernelPde j hj
      · have hi128 : i < 128 := by
          by_contra hhigh
          rw [activate_pde_high hb hi hhigh hrec] at hpresent
          exact absurd hpresent (by decide)
        have hpage := activate_page hb (f := i * 1024 + j) (by omega)
        rw [show (i * 1024 + j) / 1024 = i by omega, show (i * 1024 + j) % 1024 = j by omega] at hpage
        rw [withStackTable_pte hm hf hclear (by omega) hpresent, hpage]
        split
        · rw [userBit_half]
          exact not_userBit_entryFor_kernel _
        · exact not_userBit_entryFor_kernel _
  · intro g hg hplain
    have hne : g ≠ f := by
      rintro rfl
      obtain hlt | hfree := hplain
      · omega
      · have hmarked : Bitmap.test (withStackTable (activate m) g).pmm.bitmap g = true := by
          have hset := Bitmap.test_set m.pmm.bitmap g g
          rw [decide_eq_true rfl, Bool.true_or] at hset
          exact hset
        rw [hmarked] at hfree
        cases hfree
    have hcell : ¬ (g / 1024 = f / 1024 ∧ g % 1024 = f % 1024) := by
      rintro ⟨hdiv, hmod⟩
      omega
    have hold := activate_intact hb (f := g) (by omega)
    have hpte := withStackTable_pte hm hf hclear (i := g / 1024) (by omega) hold.table (g % 1024)
    rw [if_neg hcell] at hpte
    exact
      { range := hold.range
        table := by
          rw [hpde, update_of_ne (by omega)]
          exact hold.table
        page := by rw [hpte]; exact hold.page
        frame := by rw [hpte]; exact hold.frame }
  · rw [hpde, update_self]
  · rw [withStackTable_pte_stack hm hf hclear]
    exact update_self ..
  · intro j hpos hj
    rw [withStackTable_pte_stack hm hf hclear]
    exact (update_of_ne (by omega) _ _).trans (firstWords_of_lt hj)

variable (hinactive : m₀.active = false)

include hinactive

variable (hdir : m₀.dir < kernelPages)

include hdir

variable (hbooted : Booted m₀.pmm)

include hbooted

theorem initPaging_built : (freeBelow m₀.pmm totalBlocks < 129 ∧ initPaging m₀ = none) ∨
      ∃ m f, Building m₀ m 131072 ∧ f < totalBlocks ∧ Bitmap.test m.pmm.bitmap f = false ∧
        Taken m₀.pmm (m.pmm.markUsed f) 129 ∧ initPaging m₀ = some (withStackTable (activate m) f) := by
  have hzero := zeroPage_direct (direct_of_inactive hinactive m₀.dir)
  have hstart : Building m₀ (m₀.setFrame m₀.dir (firstWords 1024 (fun _ => 0) (m₀.phys m₀.dir))) 0 :=
    { inactive := hinactive
      dir := rfl
      dirLow := hdir
      taken := Taken.start hbooted
      started := fun i hi => absurd hi (Nat.not_lt_zero _)
      unstarted := fun i hi _ => by
        unfold Machine.pde
        rw [show (m₀.setFrame m₀.dir _).dir = m₀.dir from rfl, Machine.phys_setFrame_same]
        exact firstWords_of_lt hi
      apart := fun i j hi => absurd hi (Nat.not_lt_zero _)
      page := fun f hf => absurd hf (Nat.not_lt_zero _) }
  obtain ⟨m, hloop, hend⟩ := identityMap_run 131072 hstart (by decide)
  have hinit : ∀ a : m.active = false, initPaging m₀ = initKstackTable (activate m) := by
    intro hoff
    have hrecursive : m.store (currentPageDir m + 4 * recursivePdeIdx)
        (entryFor (currentPageDir m) 3) = some (m.set m.dir 1022 (entryFor (m.dir * 4096) 3)) :=
      store_inactive hoff m.dir (w := 1022) (by decide) _
    unfold initPaging
    rw [show currentPageDir m₀ = m₀.dir * 4096 from rfl, hzero]
    simp only [bind_eq_bind, bind_some, hloop, hrecursive]
    rfl
  obtain hb | ⟨hoff, hfree, hfull⟩ := hend
  · rw [hinit hb.inactive]
    have htaken := hb.taken
    obtain ⟨hle, hnone⟩ | ⟨f, hf, -, -, hclear, halloc, htaken⟩ := htaken.alloc
    · refine .inl ⟨by omega, ?_⟩
      have hnone' : allocBlock (activate m) = (0, activate m) := by
        unfold allocBlock
        rw [show (activate m).pmm = m.pmm from rfl, hnone]
        rfl
      unfold initKstackTable
      simp only [hnone', if_true]
    · have hm := activate_layout hb
      have hkernel : kernelPages = 512 := by decide
      have htotal := Pmm.totalBlocks_eq
      have hdirLow := hb.dirLow
      refine .inr ⟨m, f, hb, hf, hclear, htaken, ?_⟩
      exact initKstackTable_eq hm hf hclear (activate_intact hb (f := m.dir) (by omega))
        (activate_intact hb (by omega)) halloc
  · refine .inl ⟨by omega, ?_⟩
    have hnone : allocBlock (activate m) = (0, activate m) := by
      unfold allocBlock
      rw [show (activate m).pmm = m.pmm from rfl, hfull]
      rfl
    rw [hinit hoff]
    unfold initKstackTable
    simp only [hnone, if_true]

theorem initPaging_cases : (freeBelow m₀.pmm totalBlocks < 129 ∧ initPaging m₀ = none) ∨
      ∃ m, initPaging m₀ = some m ∧ Started m₀ m := by
  obtain hnone | ⟨m, f, hb, hf, hclear, htaken, hinit⟩ := initPaging_built hinactive hdir hbooted
  · exact .inl hnone
  · exact .inr ⟨_, hinit, started_of_building hb hf hclear htaken⟩

theorem initPaging_pde (hinit : initPaging m₀ = some m) {i : Nat} (hi : i < 128) :
    ∃ f, m.pde i = entryFor (f * 4096) 3 := by
  obtain ⟨-, hnone⟩ | ⟨m', f, hb, hf, hclear, -, hsome⟩ := initPaging_built hinactive hdir hbooted
  · rw [hinit] at hnone
    cases hnone
  · rw [hinit] at hsome
    cases hsome
    obtain ⟨g, hg, -⟩ := hb.started i (by omega)
    refine ⟨g, ?_⟩
    rw [withStackTable_pde (activate_layout hb) hf hclear, update_of_ne (by omega), activate_pde_low hi, hg]

theorem initPaging_pde_absent (hinit : initPaging m₀ = some m) {i : Nat} (hlow : 128 ≤ i) (hhigh : i < 1022) :
    m.pde i = 0 := by
  obtain ⟨-, hnone⟩ | ⟨m', f, hb, hf, hclear, -, hsome⟩ := initPaging_built hinactive hdir hbooted
  · rw [hinit] at hnone
    cases hnone
  · rw [hinit] at hsome
    cases hsome
    rw [withStackTable_pde (activate_layout hb) hf hclear, update_of_ne (by omega)]
    exact activate_pde_high hb (by omega) (by omega) (by omega)

end JexOs.Paging
