import JexOs.Proof.PagingInit
import JexOs.Proof.PmmLent
import Mathlib.Algebra.BigOperators.Group.Finset.Basic

/-!
# `clone_page_directory`

`Cloning m₀ m k` says what has changed since the source machine `m₀` when the clone has taken `k` frames, always
the lowest free one, and `Walk m₀ m tables pages` which frames these are.
-/

namespace JexOs.Paging

open Pmm (Booted Taken Lent freeBelow kernelPages totalBlocks)
open List Option Function

def Deep (m : Machine) (i : Nat) : Prop := present (m.pde i) ∧ (userBit (m.pde i) ∨ i = 32)

instance (m : Machine) (i : Nat) : Decidable (Deep m i) := inferInstanceAs (Decidable (_ ∧ _))

def pagesBelow (m : Machine) (i j : Nat) : Nat := Nat.count (fun j => UserPte m i j) j

def framesBefore (m : Machine) (i : Nat) : Nat :=
  1 + ∑ k ∈ Finset.range i, if Deep m k then 1 + pagesBelow m k 1024 else 0

/-- The identity pages of all that the clone works through are in place, and no user page is free or a table. -/
structure CopySafe (m : Machine) : Prop where
  dir : Intact m m.dir
  pages : ∀ i j, i < 1024 → j < 1024 → Deep m i → UserPte m i j →
    ¬ Free m (frameOf (m.pte i j)) ∧ ¬ Structural m (frameOf (m.pte i j)) ∧
      Intact m (frameOf (m.pte i j))
  frames : ∀ f, Free m f → freeBelow m.pmm f < framesBefore m 1024 → Intact m f

def Fresh (m : Machine) (k f : Nat) : Prop := Free m f ∧ freeBelow m.pmm f < k

structure Cloning (m₀ m : Machine) (k : Nat) : Prop where
  dir : m.dir = m₀.dir
  active : m.active = m₀.active
  taken : Taken m₀.pmm m.pmm k
  pde : ∀ i, m.pde i = m₀.pde i
  pte : ∀ i, i < 1024 → i ≠ 1022 → present (m₀.pde i) → ∀ j,
    m.pte i j = m₀.pte i j ∨
      ∃ f, Fresh m₀ k f ∧ i = f / 1024 ∧ j = f % 1024 ∧ m.pte i j = entryFor (f * 4096) 3
  old : ∀ g, ¬ Free m₀ g → ¬ Structural m₀ g → m.phys g = m₀.phys g

theorem pagesBelow_succ (m : Machine) (i j : Nat) :
    pagesBelow m i (j + 1) = pagesBelow m i j + if UserPte m i j then 1 else 0 :=
  Nat.count_succ _ j

variable {j k i p d : Nat} {m m' m₀ : Machine}

theorem pagesBelow_mono (m : Machine) (i : Nat) {l : Nat}
    (hle : j ≤ l) : pagesBelow m i j ≤ pagesBelow m i l :=
  Nat.count_monotone _ hle

theorem framesBefore_succ (m : Machine) (i : Nat) : framesBefore m (i + 1) =
      framesBefore m i + if Deep m i then 1 + pagesBelow m i 1024 else 0 := by
  unfold framesBefore
  rw [Finset.sum_range_succ]
  omega

theorem framesBefore_mono (m : Machine) (hle : i ≤ k) : framesBefore m i ≤ framesBefore m k := by
  induction hle with
  | refl => exact le_rfl
  | step _ ih =>
    rw [Nat.succ_eq_add_one, framesBefore_succ]
    omega

theorem Fresh.mono {k' f : Nat} (hfresh : Fresh m k f) (hle : k ≤ k') : Fresh m k' f :=
  ⟨hfresh.1, lt_of_lt_of_le hfresh.2 hle⟩

section Cloning

variable {m₀ m : Machine} {k : Nat} (hm₀ : Layout m₀) (hc : Cloning m₀ m k)

include hm₀ hc

theorem Cloning.layout : Layout m := by
  refine
    { active := hc.active.trans hm₀.active
      recursive := by rw [hc.pde, hm₀.recursive, hc.dir]
      dirTaken := hc.dir ▸ ⟨hm₀.dirTaken.1, (hc.taken.bits _ hm₀.dirTaken.1).mpr
        (.inl hm₀.dirTaken.2)⟩
      booted := hc.taken.booted
      low := ?_
      outside := ?_
      table := ?_
      apart := ?_
      absent := ?_ }
  · intro i hi
    rw [hc.pde]
    exact hm₀.low i hi
  · intro i hi hne hpresent
    rw [hc.pde] at hpresent ⊢
    rw [hc.dir]
    exact hm₀.outside i hi hne hpresent
  · intro i hi hne hpresent
    rw [hc.pde] at hpresent ⊢
    obtain ⟨hlow, hhigh, hset⟩ := hm₀.table i hi hne hpresent
    exact ⟨hlow, hhigh, (hc.taken.bits _ hhigh).mpr (.inl hset)⟩
  · intro i j hi hj hine hjne hip hjp heq
    rw [hc.pde] at hip hjp heq
    rw [hc.pde] at heq
    exact hm₀.apart i j hi hj hine hjne hip hjp heq
  · intro i hi habsent
    rw [hc.pde] at habsent ⊢
    exact hm₀.absent i hi habsent

omit hm₀ in
theorem Cloning.structural_iff (f : Nat) : Structural m f ↔ Structural m₀ f := by
  unfold Structural
  simp only [hc.pde, hc.dir]

variable {f : Nat}

theorem Cloning.not_structural (hfree : Free m₀ f) : ¬ Structural m f := by
  rw [hc.structural_iff]
  exact hm₀.not_structural_of_clear hfree.2

omit hm₀ in
theorem Cloning.intact (hne : f / 1024 ≠ 1022) (hintact : Intact m₀ f) : Intact m f := by
  have hrange := hintact.range
  obtain hsame | ⟨g, -, hdiv, hmod, hpte⟩ := hc.pte (f / 1024) (by omega) hne hintact.table (f % 1024)
  · exact
      { range := hrange
        table := by rw [hc.pde]; exact hintact.table
        page := by rw [hsame]; exact hintact.page
        frame := by rw [hsame]; exact hintact.frame }
  · have hsame : g = f := by omega
    subst hsame
    exact
      { range := hrange
        table := by rw [hc.pde]; exact hintact.table
        page := by rw [hpte, present_entryFor]
        frame := by rw [hpte, frameOf_entryFor_frame] }

omit hm₀ in
theorem Cloning.alloc : (freeBelow m₀.pmm totalBlocks ≤ k ∧ allocBlock m = (0, m)) ∨
      ∃ f, Free m₀ f ∧ freeBelow m₀.pmm f = k ∧ allocBlock m = (f * 4096, { m with pmm := m.pmm.markUsed f }) ∧
        Cloning m₀ { m with pmm := m.pmm.markUsed f } (k + 1) := by
  obtain ⟨hle, hnone⟩ | ⟨f, hf, hclear, hcount, -, halloc, htaken⟩ := hc.taken.alloc
  · refine .inl ⟨hle, ?_⟩
    unfold allocBlock
    rw [hnone]
  · refine .inr ⟨f, ⟨hf, hclear⟩, hcount, ?_, ?_⟩
    · unfold allocBlock
      rw [halloc]
      rfl
    · exact
        { dir := hc.dir
          active := hc.active
          taken := htaken
          pde := hc.pde
          pte := fun i hi hne hpresent j => by
            obtain hsame | ⟨g, hfresh, hg⟩ := hc.pte i hi hne hpresent j
            · exact .inl hsame
            · exact .inr ⟨g, hfresh.mono (by omega), hg⟩
          old := hc.old }

theorem Cloning.setFrame (hfree : Free m₀ f) (words : Nat → Nat) : Cloning m₀ (m.setFrame f words) k := by
  have hplain := hc.not_structural hm₀ hfree
  have hdir : f ≠ m.dir := fun heq => hplain (.inl heq)
  exact
    { dir := hc.dir
      active := hc.active
      taken := hc.taken
      pde := fun i => (Machine.pde_setFrame hdir i).trans (hc.pde i)
      pte := fun i hi hne hpresent j => by
        rw [Machine.pte_setFrame hplain hi (by rw [hc.pde]; exact hpresent)]
        exact hc.pte i hi hne hpresent j
      old := fun g hg hgs => by
        have hne : g ≠ f := fun heq => hg (heq ▸ hfree)
        rw [Machine.phys_setFrame_of_ne hne]
        exact hc.old g hg hgs }

theorem Cloning.set (hfree : Free m₀ f) (w v : Nat) : Cloning m₀ (m.set f w v) k :=
  hc.setFrame hm₀ hfree _

theorem Cloning.openIdentity (hfresh : Fresh m₀ k f) :
    ∃ m', m.store (ptePtr (f * 4096 / 4194304) + f * 4096 / 4096 % 1024 * 4)
      (entryFor (f * 4096) 3) = some m' ∧
      Cloning m₀ m' k ∧ ∀ g, Free m₀ g → m'.phys g = m.phys g := by
  have htotal := Pmm.totalBlocks_eq
  have hf : f < totalBlocks := hfresh.1.1
  have hm := hc.layout hm₀
  have htable : f * 4096 / 4194304 = f / 1024 := by omega
  have hpage : f * 4096 / 4096 % 1024 = f % 1024 := by omega
  have hpresent := hm.low (f / 1024) (by omega)
  rw [htable, hpage]
  refine ⟨_, hm.store_pte (by omega) (Nat.mod_lt _ (by decide)) hpresent _, ?_, ?_⟩
  · have hpde := hm.set_table_pde (i := f / 1024) (by omega) (by omega) hpresent (f % 1024)
      (entryFor (f * 4096) 3)
    exact
      { dir := hc.dir
        active := hc.active
        taken := hc.taken
        pde := fun i => (hpde i).trans (hc.pde i)
        pte := fun i hi hne hp j => by
          rw [hm.pte_set_table (by omega) hi (by omega) hne hpresent (by rw [hc.pde]; exact hp)]
          by_cases hcell : i = f / 1024 ∧ j = f % 1024
          · rw [if_pos hcell]
            exact .inr ⟨f, hfresh, hcell.1, hcell.2, rfl⟩
          · rw [if_neg hcell]
            exact hc.pte i hi hne hp j
        old := fun g hg hgs => by
          have hne : g ≠ frameOf (m.pde (f / 1024)) := by
            rintro rfl
            rw [← hc.structural_iff] at hgs
            exact hgs (Structural.table (by omega) hpresent)
          rw [Machine.set_eq_setFrame, Machine.phys_setFrame_of_ne hne]
          exact hc.old g hg hgs }
  · intro g hg
    have hne : g ≠ frameOf (m.pde (f / 1024)) := by
      rintro rfl
      exact hc.not_structural hm₀ hg (Structural.table (by omega) hpresent)
    rw [Machine.set_eq_setFrame, Machine.phys_setFrame_of_ne hne]

omit hc in
theorem Layout.not_deep_recursive : ¬ Deep m₀ 1022 := by
  rintro ⟨-, huser | heq⟩
  · rw [hm₀.recursive] at huser
    exact not_userBit_entryFor_kernel _ huser
  · cases heq

variable (hsafe : CopySafe m₀) (hk : k ≤ framesBefore m₀ 1024)

include hsafe

theorem Cloning.direct (hfree : Free m₀ f) (hbelow : freeBelow m₀.pmm f < framesBefore m₀ 1024) :
    Direct m f := by
  have htotal := Pmm.totalBlocks_eq
  have hf : f < totalBlocks := hfree.1
  have hm := hc.layout hm₀
  have hintact : Intact m f := hc.intact (by omega) (hsafe.frames f hfree hbelow)
  exact direct_of_intact hm.active hintact (hc.not_structural hm₀ hfree)

theorem Cloning.load_pde {i : Nat} (hi : i < 1024) : m.load (currentPageDir m₀ + 4 * i) = some (m₀.pde i) := by
  have htotal := Pmm.totalBlocks_eq
  have hdirHigh := hm₀.dirTaken.1
  have hintact : Intact m m.dir := by
    rw [hc.dir]
    exact hc.intact (by omega) hsafe.dir
  have hload := (hc.layout hm₀).load_pde hintact hi
  rw [hc.pde] at hload
  rw [← hload]
  unfold currentPageDir
  rw [hc.dir]

include hk

theorem Cloning.user_unchanged {i j : Nat} (hi : i < 1024) (hj : j < 1024) (hdeep : Deep m₀ i)
    (huser : UserPte m₀ i j) : m.pte i j = m₀.pte i j := by
  have hne : i ≠ 1022 := fun heq => hm₀.not_deep_recursive (heq ▸ hdeep)
  obtain hsame | ⟨f, hfresh, rfl, rfl, -⟩ := hc.pte i hi hne hdeep.1 j
  · exact hsame
  · have hintact := hsafe.frames f hfresh.1 (by have := hfresh.2; omega)
    have hpage := (hsafe.pages _ _ hi hj hdeep huser).1
    rw [hintact.frame] at hpage
    exact absurd hfresh.1 hpage

theorem Cloning.userPte_iff {i j : Nat} (hi : i < 1024) (hj : j < 1024) (hdeep : Deep m₀ i) :
    UserPte m i j ↔ UserPte m₀ i j := by
  constructor
  · intro huser
    have hne : i ≠ 1022 := fun heq => hm₀.not_deep_recursive (heq ▸ hdeep)
    obtain hsame | ⟨f, -, -, -, hpte⟩ := hc.pte i hi hne hdeep.1 j
    · unfold UserPte at huser ⊢
      rwa [hsame] at huser
    · have hbit := huser.2
      rw [hpte] at hbit
      exact absurd hbit (not_userBit_entryFor_kernel _)
  · intro huser
    have hsame := hc.user_unchanged hm₀ hsafe hk hi hj hdeep huser
    unfold UserPte at huser ⊢
    rwa [hsame]

end Cloning

def Reaches (m : Machine) (k : Nat) : Prop :=
  ∃ i j, i < 1024 ∧ j < 1024 ∧ Deep m i ∧ UserPte m i j ∧
    framesBefore m i + 1 + pagesBelow m i j < k

/-- The clone of `m₀` has come to `m` with the frames `tables`, the directory among them, and the user
pages `pages`. -/
structure Walk (m₀ m : Machine) (tables pages : List Nat) : Prop where
  cloning : Cloning m₀ m (tables.length + pages.length)
  lent : Lent m₀.pmm m.pmm (pages ++ tables)
  copied : pages ≠ [] ↔ Reaches m₀ (tables.length + pages.length)

section Walk

variable {m₀ m : Machine} {tables pages : List Nat} {i j k p : Nat}

theorem not_reaches_zero : ¬Reaches m₀ 0 := by
  rintro ⟨i, j, -, -, -, -, hlt⟩
  exact Nat.not_lt_zero _ hlt

theorem reaches_table (hk : k = framesBefore m₀ i) : Reaches m₀ (k + 1) ↔ Reaches m₀ k := by
  refine ⟨fun ⟨a, b, ha, hb, hdeep, huser, hlt⟩ => ⟨a, b, ha, hb, hdeep, huser, ?_⟩,
    fun ⟨a, b, ha, hb, hdeep, huser, hlt⟩ => ⟨a, b, ha, hb, hdeep, huser, by omega⟩⟩
  have hsucc := framesBefore_succ m₀ a
  rw [if_pos hdeep] at hsucc
  have hroom : pagesBelow m₀ a (b + 1) ≤ pagesBelow m₀ a 1024 := pagesBelow_mono m₀ a hb
  rw [pagesBelow_succ, if_pos huser] at hroom
  rcases lt_or_ge a i with hai | hia
  · have hmono := framesBefore_mono m₀ (Nat.succ_le_of_lt hai)
    rw [Nat.succ_eq_add_one] at hmono
    omega
  · have hmono := framesBefore_mono m₀ hia
    omega

theorem Walk.start (hm₀ : Layout m₀) : Walk m₀ m₀ [] [] :=
  { cloning :=
      { dir := rfl
        active := rfl
        taken := Pmm.Taken.start hm₀.booted
        pde := fun _ => rfl
        pte := fun _ _ _ _ _ => .inl rfl
        old := fun _ _ _ => rfl }
    lent := Lent.refl m₀.pmm
    copied := iff_of_false (fun h => h rfl) not_reaches_zero }

theorem Walk.write {m' : Machine} (hw : Walk m₀ m tables pages)
    (hc : Cloning m₀ m' (tables.length + pages.length)) (hpmm : m'.pmm = m.pmm) : Walk m₀ m' tables pages :=
  { cloning := hc
    lent := by
      rw [hpmm]
      exact hw.lent
    copied := hw.copied }

theorem Walk.alloc (hm₀ : Layout m₀) (hw : Walk m₀ m tables pages) :
    (freeBelow m₀.pmm totalBlocks ≤ tables.length + pages.length ∧ allocBlock m = (0, m)) ∨
      ∃ f, Free m₀ f ∧ freeBelow m₀.pmm f = tables.length + pages.length ∧ f * 4096 ≠ 0 ∧
        allocBlock m = (f * 4096, { m with pmm := m.pmm.markUsed f }) ∧
        Cloning m₀ { m with pmm := m.pmm.markUsed f } (tables.length + pages.length + 1) ∧
        Lent m₀.pmm (m.pmm.markUsed f) (f :: (pages ++ tables)) := by
  obtain hnone | ⟨f, hf, hrank, halloc, hc⟩ := hw.cloning.alloc
  · exact .inl hnone
  · have hlow : 512 ≤ f := hm₀.booted.kernelPages_le hf.2
    refine .inr ⟨f, hf, hrank, by omega, halloc, hc, hw.lent.take hf.1 ?_⟩
    have hclear := (hw.cloning.taken.clear_iff hf.1).mpr
    exact hclear ⟨hf.2, hrank.ge⟩

theorem Walk.page {f : Nat} (hlent : Lent m₀.pmm m.pmm (f :: (pages ++ tables))) (hi : i < 1024)
    (hj : j < 1024) (hdeep : Deep m₀ i) (huser : UserPte m₀ i j)
    (hturn : tables.length + pages.length = framesBefore m₀ i + 1 + pagesBelow m₀ i j)
    (hc : Cloning m₀ m (tables.length + pages.length + 1)) : Walk m₀ m tables (f :: pages) :=
  { cloning := hc
    lent := hlent
    copied := iff_of_true (cons_ne_nil f pages)
      ⟨i, j, hi, hj, hdeep, huser, by
        rw [length_cons]
        omega⟩ }

theorem Walk.table (hlent : Lent m₀.pmm m.pmm (p :: (pages ++ tables)))
    (hcopied : pages ≠ [] ↔ Reaches m₀ (tables.length + pages.length))
    (hturn : tables.length + pages.length = framesBefore m₀ i)
    (hc : Cloning m₀ m (tables.length + pages.length + 1)) : Walk m₀ m (tables ++ [p]) pages := by
  have hlength : (tables ++ [p]).length + pages.length = tables.length + pages.length + 1 := by
    rw [length_append, length_singleton]
    omega
  refine
    { cloning := by rwa [hlength]
      lent := hlent.perm ?_
      copied := by rw [hlength, reaches_table hturn, hcopied] }
  rw [← append_assoc]
  exact (perm_append_singleton p (pages ++ tables)).symm

end Walk

def PageCopied (m₀ m : Machine) (i j p : Nat) : Prop :=
  ∃ g, Free m₀ g ∧ freeBelow m₀.pmm g = framesBefore m₀ i + 1 + pagesBelow m₀ i j ∧
    m.phys p j = m₀.pte i j % 4096 + g * 4096 ∧
    ∀ w, w < 1024 → m.phys g w = m₀.phys (frameOf (m₀.pte i j)) w

structure Copied (m₀ m m' : Machine) (i p j : Nat) : Prop where
  cloning : Cloning m₀ m' (framesBefore m₀ i + 1 + pagesBelow m₀ i 1024)
  keeps : ∀ g, Fresh m₀ (framesBefore m₀ i + 1 + pagesBelow m₀ i j) g → g ≠ p →
    m'.phys g = m.phys g
  below : ∀ l, l < j → m'.phys p l = m.phys p l
  pages : ∀ l, j ≤ l → l < 1024 → UserPte m₀ i l → PageCopied m₀ m' i l p
  others : ∀ l, j ≤ l → l < 1024 → ¬ UserPte m₀ i l →
    m'.phys p l = m.phys p l ∨ ¬ userBit (m'.phys p l)

theorem Copied.cons {m₁ : Machine} (hrest : Copied m₀ m₁ m' i p (j + 1))
    (hkeeps : ∀ g, Fresh m₀ (framesBefore m₀ i + 1 + pagesBelow m₀ i j) g → g ≠ p → m₁.phys g = m.phys g)
    (hwords : ∀ l, l ≠ j → m₁.phys p l = m.phys p l) (huser : UserPte m₀ i j → PageCopied m₀ m' i j p)
    (hother : ¬ UserPte m₀ i j → m₁.phys p j = m.phys p j ∨ ¬ userBit (m₁.phys p j)) :
    Copied m₀ m m' i p j := by
  have hlast := hrest.below j (Nat.lt_succ_self j)
  refine
    { cloning := hrest.cloning
      keeps := ?_
      below := ?_
      pages := ?_
      others := ?_ }
  · intro g hg hne
    have hmono := pagesBelow_mono m₀ i (show j ≤ j + 1 by omega)
    rw [hrest.keeps g (hg.mono (by omega)) hne]
    exact hkeeps g hg hne
  · intro l hl
    rw [hrest.below l (by omega)]
    exact hwords l (by omega)
  · intro l hjl hl hpte
    by_cases heq : l = j
    · rw [heq] at hpte ⊢
      exact huser hpte
    · exact hrest.pages l (by omega) hl hpte
  · intro l hjl hl hpte
    by_cases heq : l = j
    · rw [heq] at hpte ⊢
      rw [hlast]
      exact hother hpte
    · have hsame := hwords l heq
      rw [← hsame]
      exact hrest.others l (by omega) hl hpte

theorem Layout.not_recursive_of_plain {s : Nat} (hm₀ : Layout m₀)
    (hintact : Intact m₀ s) (hplain : ¬ Structural m₀ s) : s / 1024 ≠ 1022 := by
  intro heq
  have hpage := hintact.page
  have hframe := hintact.frame
  rw [heq, hm₀.pte_recursive] at hpage hframe
  exact hplain (.inr ⟨s % 1024, Nat.mod_lt _ (by decide), hpage, hframe⟩)

section Table

variable {m₀ : Machine} (hm₀ : Layout m₀) (hsafe : CopySafe m₀)

include hm₀ hsafe

theorem Cloning.copyPage {m : Machine} {k i j f : Nat} (hc : Cloning m₀ m k) (hi : i < 1024)
    (hj : j < 1024) (hdeep : Deep m₀ i) (huser : UserPte m₀ i j) (hfree : Free m₀ f)
    (hbelow : freeBelow m₀.pmm f < framesBefore m₀ 1024) :
    m.copyPage (f * 4096) (frameOf (m₀.pte i j) * 4096) =
      some (m.setFrame f (firstWords 1024 (m₀.phys (frameOf (m₀.pte i j))) (m.phys f))) := by
  obtain ⟨htaken, hplain, hintact⟩ := hsafe.pages i j hi hj hdeep huser
  have hm := hc.layout hm₀
  have hsource : Intact m (frameOf (m₀.pte i j)) :=
    hc.intact (hm₀.not_recursive_of_plain hintact hplain) hintact
  have hne : frameOf (m₀.pte i j) ≠ f := fun heq => htaken (heq ▸ hfree)
  rw [← hc.old _ htaken hplain]
  refine copyPage_direct (hc.direct hm₀ hsafe hfree hbelow) hne fun words w hw => ?_
  rw [translate_setFrame (hc.not_structural hm₀ hfree)]
  exact translate_identity hm.active hsource hw

theorem cloneTable_spec {i p : Nat} (hi : i < 1024) (hdeep : Deep m₀ i) (hp : Free m₀ p)
    (hrank : freeBelow m₀.pmm p = framesBefore m₀ i) {n j : Nat} (hjn : j + n = 1024) {m : Machine}
    {tables pages : List Nat} (hw : Walk m₀ m tables pages)
    (hturn : tables.length + pages.length = framesBefore m₀ i + 1 + pagesBelow m₀ i j) :
    ∃ done m' pages', cloneTable (p * 4096) i n j m = some (done, m') ∧ Walk m₀ m' tables pages' ∧
      (if done then tables.length + pages'.length = framesBefore m₀ (i + 1) ∧ Copied m₀ m m' i p j
      else freeBelow m₀.pmm totalBlocks ≤ tables.length + pages'.length ∧
        freeBelow m₀.pmm totalBlocks < framesBefore m₀ (i + 1)) := by
  have hsucc := framesBefore_succ m₀ i
  rw [if_pos hdeep] at hsucc
  have hbound := framesBefore_mono m₀ (Nat.succ_le_of_lt hi)
  rw [Nat.succ_eq_add_one] at hbound
  induction n generalizing j m pages with
  | zero =>
    obtain rfl : j = 1024 := by omega
    refine ⟨true, m, pages, rfl, hw, ?_⟩
    exact ⟨by omega,
      { cloning := hturn ▸ hw.cloning
        keeps := fun _ _ _ => rfl
        below := fun _ _ => rfl
        pages := fun l hjl hl => absurd hl (by omega)
        others := fun l hjl hl => absurd hl (by omega) }⟩
  | succ n ih =>
    have hj : j < 1024 := by omega
    have hpages : pagesBelow m₀ i j ≤ pagesBelow m₀ i 1024 := pagesBelow_mono m₀ i (by omega)
    have hc := hw.cloning
    have hm := hc.layout hm₀
    have hpresent : present (m.pde i) := by
      rw [hc.pde]
      exact hdeep.1
    have hload : m.load (ptePtr i + 4 * j) = some (m.pte i j) := load_of_translate (hm.window hi hpresent hj)
    have huserIff := hc.userPte_iff hm₀ hsafe (by omega) hi hj hdeep
    -- what comes behind this entry was copied too, where the loop comes to its end
    have hnext : ∀ {m₁ pages₁}, Walk m₀ m₁ tables pages₁ →
        tables.length + pages₁.length = framesBefore m₀ i + 1 + pagesBelow m₀ i (j + 1) →
        (∀ m', Copied m₀ m₁ m' i p (j + 1) → Copied m₀ m m' i p j) →
        ∃ done m' pages', cloneTable (p * 4096) i n (j + 1) m₁ = some (done, m') ∧
          Walk m₀ m' tables pages' ∧
          (if done then tables.length + pages'.length = framesBefore m₀ (i + 1) ∧ Copied m₀ m m' i p j
          else freeBelow m₀.pmm totalBlocks ≤ tables.length + pages'.length ∧
            freeBelow m₀.pmm totalBlocks < framesBefore m₀ (i + 1)) := by
      intro m₁ pages₁ hw₁ hturn₁ hcons
      obtain ⟨done, m', pages', hrun, hw', hend⟩ := ih (show j + 1 + n = 1024 by omega) hw₁ hturn₁
      refine ⟨done, m', pages', hrun, hw', ?_⟩
      cases done with
      | false => exact hend
      | true => exact ⟨hend.1, hcons m' hend.2⟩
    rw [cloneTable, hload]
    simp only [bind_eq_bind, bind_some]
    by_cases hpte : present (m.pte i j)
    · rw [if_neg (not_not.mpr hpte)]
      by_cases hbit : userBit (m.pte i j)
      · rw [if_pos hbit]
        have huser : UserPte m₀ i j := huserIff.mp ⟨hpte, hbit⟩
        have hsame := hc.user_unchanged hm₀ hsafe (by omega) hi hj hdeep huser
        have hroom : pagesBelow m₀ i (j + 1) ≤ pagesBelow m₀ i 1024 := pagesBelow_mono m₀ i (by omega)
        have hone : pagesBelow m₀ i (j + 1) = pagesBelow m₀ i j + 1 := by
          rw [pagesBelow_succ, if_pos huser]
        obtain ⟨hle, hnone⟩ | ⟨f, hf, hfrank, haddr, halloc, hc₁, hlent⟩ := hw.alloc hm₀
        · refine ⟨false, m, pages, by simp only [hnone, if_true], hw, ?_⟩
          rw [if_neg Bool.false_ne_true]
          omega
        · have hfp : f ≠ p := by
            rintro rfl
            omega
          have hcopy := hc₁.copyPage hm₀ hsafe hi hj hdeep huser hf (by omega)
          have hc₂ := hc₁.setFrame hm₀ hf (firstWords 1024 (m₀.phys (frameOf (m₀.pte i j))) (m.phys f))
          have hstore := store_of_translate (v := m₀.pte i j % 4096 + f * 4096)
            ((hc₂.direct hm₀ hsafe hp (by omega)).translate hj)
          have hc₃ := hc₂.set hm₀ hp j (m₀.pte i j % 4096 + f * 4096)
          simp only [halloc, if_neg haddr, hsame, hcopy, bind_some,
            Nat.mul_div_cancel f (show 0 < 4096 by decide), hstore]
          refine hnext (Walk.page hlent hi hj hdeep huser hturn hc₃) (by
            rw [length_cons]
            omega) fun m' hcopied => hcopied.cons ?_ ?_ ?_ ?_
          · intro g hg hne
            have hgf : g ≠ f := by
              rintro rfl
              have := hg.2
              omega
            rw [Machine.set_eq_setFrame, Machine.phys_setFrame_of_ne hne, Machine.phys_setFrame_of_ne hgf]
          · intro l hne
            rw [Machine.set_eq_setFrame, Machine.phys_setFrame_same, update_of_ne hne,
              Machine.phys_setFrame_of_ne (Ne.symm hfp)]
          · intro _
            refine ⟨f, hf, by omega, ?_, fun w hw => ?_⟩
            · rw [hcopied.below j (by omega), Machine.set_eq_setFrame, Machine.phys_setFrame_same, update_self]
            · rw [hcopied.keeps f ⟨hf, by omega⟩ hfp, Machine.set_eq_setFrame,
                Machine.phys_setFrame_of_ne hfp, Machine.phys_setFrame_same, firstWords_of_lt hw]
          · exact fun hnot => absurd huser hnot
      · rw [if_neg hbit]
        have hnot : ¬ UserPte m₀ i j := fun huser => hbit (huserIff.mpr huser).2
        rw [store_of_translate ((hc.direct hm₀ hsafe hp (by omega)).translate hj), bind_some]
        refine hnext (hw.write (hc.set hm₀ hp j _) rfl) (by
          rw [pagesBelow_succ, if_neg hnot]
          exact hturn) fun m' hcopied => hcopied.cons ?_ ?_ ?_ ?_
        · intro g _ hne
          exact Machine.phys_setFrame_of_ne hne
        · intro l hne
          rw [Machine.set_eq_setFrame, Machine.phys_setFrame_same, update_of_ne hne]
        · exact fun huser => absurd huser hnot
        · intro _
          rw [Machine.set_eq_setFrame, Machine.phys_setFrame_same, update_self]
          exact .inr hbit
    · rw [if_pos hpte]
      have hnot : ¬ UserPte m₀ i j := fun huser => hpte (huserIff.mpr huser).1
      refine hnext hw (by
        rw [pagesBelow_succ, if_neg hnot]
        exact hturn) fun m' hcopied => hcopied.cons ?_ ?_ ?_ ?_
      · exact fun _ _ _ => rfl
      · exact fun _ _ => rfl
      · exact fun huser => absurd huser hnot
      · exact fun _ => .inl rfl

end Table

theorem framesBefore_pos (m : Machine) (i : Nat) : 0 < framesBefore m i := by
  unfold framesBefore
  omega

/-- The new table `p` for entry `i`. Its entry 0 is the self-map, whatever the source has there. -/
structure TableCopied (m₀ m : Machine) (i p : Nat) : Prop where
  free : Free m₀ p
  rank : freeBelow m₀.pmm p = framesBefore m₀ i
  self : m.phys p 0 = entryFor (p * 4096) 3
  pages : ∀ l, 0 < l → l < 1024 → UserPte m₀ i l → PageCopied m₀ m i l p
  others : ∀ l, l < 1024 → ¬ UserPte m₀ i l → ¬ userBit (m.phys p l)

theorem TableCopied.congr (hdeep : Deep m₀ i) (hcopied : TableCopied m₀ m i p) (hd : freeBelow m₀.pmm d = 0)
    (hkeeps : ∀ g, Fresh m₀ (framesBefore m₀ (i + 1)) g → g ≠ d → m'.phys g = m.phys g) :
    TableCopied m₀ m' i p := by
  have hpos := framesBefore_pos m₀ i
  have hrank := hcopied.rank
  have hsucc := framesBefore_succ m₀ i
  rw [if_pos hdeep] at hsucc
  have hp : m'.phys p = m.phys p := by
    refine hkeeps p ⟨hcopied.free, by omega⟩ ?_
    rintro rfl
    omega
  refine
    { free := hcopied.free
      rank := hcopied.rank
      self := by rw [hp]; exact hcopied.self
      pages := ?_
      others := by rw [hp]; exact hcopied.others }
  intro l hpos hl huser
  obtain ⟨g, hg, hgrank, hentry, hwords⟩ := hcopied.pages l hpos hl huser
  have hbelow : pagesBelow m₀ i (l + 1) ≤ pagesBelow m₀ i 1024 := pagesBelow_mono m₀ i (by omega)
  rw [pagesBelow_succ, if_pos huser] at hbelow
  have hsame : m'.phys g = m.phys g := by
    refine hkeeps g ⟨hg, by omega⟩ ?_
    rintro rfl
    omega
  exact ⟨g, hg, hgrank, by rw [hp, hentry], by rw [hsame]; exact hwords⟩

def EntryCloned (m₀ m : Machine) (d i : Nat) : Prop :=
  if Deep m₀ i then ∃ p, m.phys d i = clonedPde (p * 4096) (m₀.pde i) ∧ TableCopied m₀ m i p
  else m.phys d i = m₀.pde i

theorem EntryCloned.congr (hcloned : EntryCloned m₀ m d i)
    (hd : freeBelow m₀.pmm d = 0) (hentry : m'.phys d i = m.phys d i)
    (hkeeps : ∀ g, Fresh m₀ (framesBefore m₀ (i + 1)) g → g ≠ d → m'.phys g = m.phys g) :
    EntryCloned m₀ m' d i := by
  unfold EntryCloned at hcloned ⊢
  by_cases hdeep : Deep m₀ i
  · rw [if_pos hdeep] at hcloned ⊢
    obtain ⟨p, hpde, hcopied⟩ := hcloned
    exact ⟨p, by rw [hentry, hpde], hcopied.congr hdeep hd hkeeps⟩
  · rw [if_neg hdeep] at hcloned ⊢
    rw [hentry, hcloned]

def FreshFrames (m₀ : Machine) (frames : List Nat) : Prop :=
  ∀ t ∈ frames, ∃ f, t = f * 4096 ∧ Free m₀ f

theorem FreshFrames.append {tables : List Nat} (htables : FreshFrames m₀ tables)
    (hp : Free m₀ p) : FreshFrames m₀ (tables ++ [p * 4096]) := by
  intro t ht
  obtain hold | hlast := mem_append.mp ht
  · exact htables t hold
  · exact ⟨p, mem_singleton.mp hlast, hp⟩

def Undone (m₀ m' : Machine) : Prop :=
  ∃ m k frames, Cloning m₀ m k ∧ FreshFrames m₀ frames ∧
    m' = { m with pmm := frames.foldl Pmm.pmmFreeBlock m.pmm }

section Directory

variable {m₀ : Machine} (hm₀ : Layout m₀) (hsafe : CopySafe m₀)

include hm₀ hsafe

variable {m : Machine} {pages tables : List Nat}

theorem Cloning.store_word {k f w : Nat} (hc : Cloning m₀ m k) (hfree : Free m₀ f)
    (hbelow : freeBelow m₀.pmm f < framesBefore m₀ 1024) (hw : w < 1024) (v : Nat) :
    m.store (f * 4096 + 4 * w) v = some (m.set f w v) :=
  store_of_translate ((hc.direct hm₀ hsafe hfree hbelow).translate hw)

theorem Cloning.prepareTable {k p : Nat} (hc : Cloning m₀ m k) (hp : Fresh m₀ k p)
    (hk : k ≤ framesBefore m₀ 1024) :
    ∃ m₁ m₂ m₃, m.zeroPage (p * 4096) = some m₁ ∧
      m₁.store (ptePtr (p * 4096 / 4194304) + p * 4096 / 4096 % 1024 * 4) (entryFor (p * 4096) 3) = some m₂ ∧
      m₂.store (p * 4096) (entryFor (p * 4096) 3) = some m₃ ∧ Cloning m₀ m₃ k ∧
      (∀ l, l < 1024 → ¬ userBit (m₃.phys p l)) ∧ (∀ g, Free m₀ g → g ≠ p → m₃.phys g = m.phys g) ∧
      m₃.pmm = m.pmm := by
  have hbelow : freeBelow m₀.pmm p < framesBefore m₀ 1024 := lt_of_lt_of_le hp.2 hk
  have hc₁ := hc.setFrame hm₀ hp.1 (firstWords 1024 (fun _ => 0) (m.phys p))
  obtain ⟨m₂, hopen, hc₂, hsame₂⟩ := hc₁.openIdentity hm₀ hp
  have hself := hc₂.store_word hm₀ hsafe hp.1 hbelow (w := 0) (by decide) (entryFor (p * 4096) 3)
  rw [Nat.mul_zero, Nat.add_zero] at hself
  refine ⟨_, m₂, _, zeroPage_direct (hc.direct hm₀ hsafe hp.1 hbelow), hopen, hself,
    hc₂.set hm₀ hp.1 0 (entryFor (p * 4096) 3), ?_, ?_, ?_⟩
  · intro l hl
    rw [Machine.set_eq_setFrame, Machine.phys_setFrame_same, hsame₂ p hp.1, Machine.phys_setFrame_same]
    exact not_userBit_selfMapped p (m.phys p) hl
  · intro g hg hne
    rw [Machine.set_eq_setFrame, Machine.phys_setFrame_of_ne hne, hsame₂ g hg, Machine.phys_setFrame_of_ne hne]
  · have hpmm := store_pmm hopen
    rw [store_pmm hself, hpmm]
    rfl

omit hm₀ hsafe in
theorem Copied.entryCloned {m' : Machine} {i p d : Nat} (hcopied : Copied m₀ m m' i p 0)
    (hdeep : Deep m₀ i) (hp : Free m₀ p) (hrank : freeBelow m₀.pmm p = framesBefore m₀ i)
    (hdrank : freeBelow m₀.pmm d = 0) (hkernel : ∀ l, l < 1024 → ¬ userBit (m.phys p l)) :
    EntryCloned m₀ ((m'.set p 0 (entryFor (p * 4096) 3)).set d i (clonedPde (p * 4096) (m₀.pde i))) d i := by
  have hpos := framesBefore_pos m₀ i
  have hpd : p ≠ d := by
    rintro rfl
    omega
  have hwords : ((m'.set p 0 (entryFor (p * 4096) 3)).set d i
      (clonedPde (p * 4096) (m₀.pde i))).phys p =
      Function.update (m'.phys p) 0 (entryFor (p * 4096) 3) := by
    rw [Machine.set_eq_setFrame, Machine.phys_setFrame_of_ne hpd, Machine.set_eq_setFrame,
      Machine.phys_setFrame_same]
  unfold EntryCloned
  rw [if_pos hdeep]
  refine ⟨p, ?_,
    { free := hp
      rank := hrank
      self := by rw [hwords, update_self]
      pages := ?_
      others := ?_ }⟩
  · rw [Machine.set_eq_setFrame, Machine.phys_setFrame_same, update_self]
  · intro l hl0 hl huser
    obtain ⟨g, hg, hgrank, hentry, hpage⟩ := hcopied.pages l (by omega) hl huser
    have hgp : g ≠ p := by
      rintro rfl
      omega
    have hgd : g ≠ d := by
      rintro rfl
      omega
    refine ⟨g, hg, hgrank, ?_, fun w hw => ?_⟩
    · rw [hwords, update_of_ne (by omega), hentry]
    · rw [Machine.set_eq_setFrame, Machine.phys_setFrame_of_ne hgd, Machine.set_eq_setFrame,
        Machine.phys_setFrame_of_ne hgp, hpage w hw]
  · intro l hl hnot
    rw [hwords]
    by_cases hl0 : l = 0
    · rw [hl0, update_self]
      exact not_userBit_entryFor_kernel _
    · rw [update_of_ne hl0]
      obtain hsame | hbit := hcopied.others l (by omega) hl hnot
      · rw [hsame]
        exact hkernel l hl
      · exact hbit

theorem cloneEntry_spec {i p d : Nat} (hi : i < 1024) (hdeep : Deep m₀ i) (hp : Free m₀ p)
    (hrank : freeBelow m₀.pmm p = framesBefore m₀ i) (hd : Free m₀ d) (hdrank : freeBelow m₀.pmm d = 0)
    (hw : Walk m₀ m tables pages) (hturn : tables.length + pages.length = framesBefore m₀ i + 1) :
    ∃ done m' pages', cloneEntry (currentPageDir m₀) (d * 4096) i (p * 4096) m = some (done, m') ∧
      Walk m₀ m' tables pages' ∧ (if done then tables.length + pages'.length = framesBefore m₀ (i + 1) ∧
        (∀ g, Fresh m₀ (framesBefore m₀ i) g → g ≠ d → m'.phys g = m.phys g) ∧
        (∀ k, k ≠ i → m'.phys d k = m.phys d k) ∧ EntryCloned m₀ m' d i
      else freeBelow m₀.pmm totalBlocks ≤ tables.length + pages'.length ∧
        freeBelow m₀.pmm totalBlocks < framesBefore m₀ (i + 1)) := by
  have hpos := framesBefore_pos m₀ i
  have hsucc := framesBefore_succ m₀ i
  have hmono := framesBefore_mono m₀ (Nat.succ_le_of_lt hi)
  rw [if_pos hdeep] at hsucc
  rw [Nat.succ_eq_add_one] at hmono
  have hpd : p ≠ d := by
    rintro rfl
    omega
  obtain ⟨m₁, m₂, m₃, hzero, hopen, hself, hc₃, hkernel, hkeep₃, hpmm⟩ :=
    hw.cloning.prepareTable hm₀ hsafe ⟨hp, by omega⟩ (by omega)
  obtain ⟨done, m₄, pages', htable, hw₄, hend⟩ := cloneTable_spec hm₀ hsafe hi hdeep hp hrank
    (show 0 + 1024 = 1024 from rfl) (hw.write hc₃ hpmm) hturn
  unfold cloneEntry
  simp only [bind_eq_bind, hzero, bind_some, hopen, hself, htable]
  cases done with
  | false => exact ⟨false, m₄, pages', by simp, hw₄, hend⟩
  | true =>
    obtain ⟨hcount, hcopied⟩ := hend
    have hself₄ := hw₄.cloning.store_word hm₀ hsafe hp (by omega) (w := 0) (by decide) (entryFor (p * 4096) 3)
    rw [Nat.mul_zero, Nat.add_zero] at hself₄
    have hc₅ := hw₄.cloning.set hm₀ hp 0 (entryFor (p * 4096) 3)
    have hload := hc₅.load_pde hm₀ hsafe hi
    have hstore := hc₅.store_word hm₀ hsafe hd (by omega) hi (clonedPde (p * 4096) (m₀.pde i))
    refine ⟨true, (m₄.set p 0 (entryFor (p * 4096) 3)).set d i (clonedPde (p * 4096) (m₀.pde i)),
      pages', ?_, hw₄.write (hc₅.set hm₀ hd i _) rfl, hcount, ?_, ?_,
      hcopied.entryCloned hdeep hp hrank hdrank hkernel⟩
    · simp only [Bool.not_true, Bool.false_eq_true, if_false, hself₄, bind_some, hload, hstore]
    · intro g hg hne
      have hgp : g ≠ p := by
        rintro rfl
        have := hg.2
        omega
      rw [Machine.set_eq_setFrame, Machine.phys_setFrame_of_ne hne, Machine.set_eq_setFrame,
        Machine.phys_setFrame_of_ne hgp, hcopied.keeps g (hg.mono (by omega)) hgp,
        hkeep₃ g hg.1 hgp]
    · intro k hk
      rw [Machine.set_eq_setFrame, Machine.phys_setFrame_same, update_of_ne hk,
        Machine.set_eq_setFrame, Machine.phys_setFrame_of_ne (Ne.symm hpd),
        hcopied.keeps d ⟨hd, by omega⟩ (Ne.symm hpd), hkeep₃ d hd (Ne.symm hpd)]

theorem cloneEntries_spec {d : Nat} (hd : Free m₀ d) (hdrank : freeBelow m₀.pmm d = 0) {n i : Nat}
    (hin : i + n = 1024) (hw : Walk m₀ m (d :: tables) pages)
    (hturn : (d :: tables).length + pages.length = framesBefore m₀ i)
    (hhandled : ∀ k, k < i → EntryCloned m₀ m d k)
    (hrest : ∀ k, i ≤ k → k < 1024 → m.phys d k = 0) : ∃ done tables' m' pages',
      cloneEntries (currentPageDir m₀) (d * 4096) n i (tables.map (· * 4096)) m =
        some (done, tables'.map (· * 4096), m') ∧ Walk m₀ m' (d :: tables') pages' ∧
      (if done then (d :: tables').length + pages'.length = framesBefore m₀ 1024 ∧
        ∀ k, k < 1024 → EntryCloned m₀ m' d k
      else freeBelow m₀.pmm totalBlocks ≤ (d :: tables').length + pages'.length ∧
        freeBelow m₀.pmm totalBlocks < framesBefore m₀ 1024) := by
  induction n generalizing i m tables pages with
  | zero =>
    obtain rfl : i = 1024 := by omega
    exact ⟨true, tables, m, pages, rfl, hw, hturn, hhandled⟩
  | succ n ih =>
    have hi : i < 1024 := by omega
    have hin' : i + 1 + n = 1024 := by omega
    have hpos := framesBefore_pos m₀ i
    have hsucc := framesBefore_succ m₀ i
    have hmono := framesBefore_mono m₀ (Nat.succ_le_of_lt hi)
    rw [Nat.succ_eq_add_one] at hmono
    have hc := hw.cloning
    rw [cloneEntries, hc.load_pde hm₀ hsafe hi]
    simp only [bind_eq_bind, bind_some]
    by_cases hpresent : present (m₀.pde i)
    · rw [if_neg (not_not.mpr hpresent)]
      by_cases hcopy : userBit (m₀.pde i) ∨ i = 32
      · have hdeep : Deep m₀ i := ⟨hpresent, hcopy⟩
        rw [if_pos hdeep] at hsucc
        rw [if_pos hcopy]
        obtain ⟨hle, hnone⟩ | ⟨p, hp, hrank, haddr, halloc, hc₁, hlent⟩ := hw.alloc hm₀
        · refine ⟨false, tables, m, pages, by simp only [hnone, if_true], hw, ?_⟩
          rw [if_neg Bool.false_ne_true]
          omega
        · have hw₁ : Walk m₀ { m with pmm := m.pmm.markUsed p } (d :: (tables ++ [p])) pages :=
            Walk.table hlent hw.copied hturn hc₁
          have hturn₁ : (d :: (tables ++ [p])).length + pages.length = framesBefore m₀ i + 1 := by
            rw [← cons_append, length_append, length_singleton]
            omega
          obtain ⟨done, m₂, pages₂, hentry, hw₂, hend⟩ :=
            cloneEntry_spec hm₀ hsafe hi hdeep hp (by omega) hd hdrank hw₁ hturn₁
          have htables : tables.map (· * 4096) ++ [p * 4096] = (tables ++ [p]).map (· * 4096) := by
            rw [map_append, map_singleton]
          simp only [halloc, if_neg haddr, hentry, bind_some, htables]
          cases done with
          | false => exact ⟨false, _, m₂, pages₂, rfl, hw₂, hend.1, lt_of_lt_of_le hend.2 hmono⟩
          | true =>
            obtain ⟨hcount, hkeeps, hother, hcloned⟩ := hend
            refine ih hin' hw₂ hcount ?_ ?_
            · intro k hk
              by_cases heq : k = i
              · exact heq ▸ hcloned
              · refine (hhandled k (by omega)).congr hdrank (hother k heq) fun g hg hne => ?_
                exact hkeeps g (hg.mono (framesBefore_mono m₀ (by omega))) hne
            · intro k hik hk
              rw [hother k (by omega)]
              exact hrest k (by omega) hk
      · have hshared : ¬ Deep m₀ i := fun hdeep => hcopy hdeep.2
        rw [if_neg hshared] at hsucc
        rw [if_neg hcopy, hc.store_word hm₀ hsafe hd (by omega) hi, bind_some]
        have hother : ∀ k, k ≠ i → (m.set d i (m₀.pde i)).phys d k = m.phys d k := by
          intro k hne
          rw [Machine.set_eq_setFrame, Machine.phys_setFrame_same, update_of_ne hne]
        refine ih hin' (hw.write (hc.set hm₀ hd i _) rfl) (by omega) ?_ ?_
        · intro k hk
          by_cases heq : k = i
          · subst heq
            unfold EntryCloned
            rw [if_neg hshared, Machine.set_eq_setFrame, Machine.phys_setFrame_same, update_self]
          · refine (hhandled k (by omega)).congr hdrank (hother k heq) fun g _ hne => ?_
            exact Machine.phys_setFrame_of_ne hne
        · intro k hik hk
          rw [hother k (by omega)]
          exact hrest k (by omega) hk
    · have hshared : ¬ Deep m₀ i := fun hdeep => hpresent hdeep.1
      rw [if_neg hshared] at hsucc
      rw [if_pos hpresent]
      refine ih hin' hw (by omega) ?_ fun k hik hk => hrest k (by omega) hk
      intro k hk
      by_cases heq : k = i
      · subst heq
        unfold EntryCloned
        rw [if_neg hshared, hrest k le_rfl hi, hm₀.absent k hi hpresent]
      · exact hhandled k (by omega)

/-- The frames of a clone. It fails only when there are not enough free frames, and then keeps the user
pages it has copied. -/
theorem clonePageDirectory_frames :
    ∃ dst m' frames, clonePageDirectory m₀ (currentPageDir m₀) = some (dst, m') ∧
      Lent m₀.pmm m'.pmm frames ∧ (∃ m k, Cloning m₀ m k ∧ m' = { m with pmm := m'.pmm }) ∧
      (if dst = 0 then freeBelow m₀.pmm totalBlocks < framesBefore m₀ 1024 ∧
        (frames ≠ [] ↔ Reaches m₀ (freeBelow m₀.pmm totalBlocks)) ∧ Undone m₀ m'
      else framesBefore m₀ 1024 ≤ freeBelow m₀.pmm totalBlocks ∧ frames ≠ [] ∧
        ∃ d, dst = d * 4096 ∧ Free m₀ d ∧ freeBelow m₀.pmm d = 0 ∧
          Cloning m₀ m' (framesBefore m₀ 1024) ∧ m'.phys d 1022 = entryFor (d * 4096) 3 ∧
          ∀ i, i < 1024 → i ≠ 1022 → EntryCloned m₀ m' d i) := by
  have hpos := framesBefore_pos m₀ 1024
  have hstart := Walk.start hm₀
  unfold clonePageDirectory
  obtain ⟨hle, hnone⟩ | ⟨d, hd, hrank, haddr, halloc, hc, hlent⟩ := hstart.alloc hm₀
  · have hnothing : freeBelow m₀.pmm totalBlocks = 0 := Nat.le_zero.mp hle
    refine ⟨0, m₀, [], by simp only [hnone, if_true], Lent.refl m₀.pmm, ⟨m₀, 0, hstart.cloning, rfl⟩, ?_⟩
    rw [if_pos rfl, hnothing]
    exact ⟨hpos, iff_of_false (fun h => h rfl) not_reaches_zero, m₀, 0, [], hstart.cloning,
      by simp [FreshFrames], rfl⟩
  · have hdrank : freeBelow m₀.pmm d = 0 := hrank
    have hzero := zeroPage_direct (hc.direct hm₀ hsafe hd (by omega))
    have hw : Walk m₀ { m₀ with pmm := m₀.pmm.markUsed d } [d] [] :=
      { cloning := hc
        lent := hlent
        copied := iff_of_false (fun h => h rfl) fun ⟨a, b, _, _, _, _, hlt⟩ => by
          simp only [length_singleton, length_nil] at hlt
          omega }
    have hw₁ := hw.write (hc.setFrame hm₀ hd (firstWords 1024 (fun _ => 0) (m₀.phys d))) rfl
    obtain ⟨done, tables, m', pages, hloop, hw', hend⟩ := cloneEntries_spec hm₀ hsafe hd hdrank
      (show 0 + 1024 = 1024 from rfl) hw₁ rfl (fun _ hk => absurd hk (Nat.not_lt_zero _))
      fun k _ hk => by rw [Machine.phys_setFrame_same, firstWords_of_lt hk]
    have hle := hw'.lent.length_le
    rw [length_append] at hle
    rw [map_nil] at hloop
    simp only [halloc, if_neg haddr, hzero, bind_eq_bind, bind_some, hloop]
    cases done with
    | false =>
      have hperm : (pages ++ d :: tables).Perm (tables ++ (d :: pages)) := by
        refine perm_append_comm.trans ?_
        exact perm_middle.symm
      have hgone := (hw'.lent.perm hperm).giveBackAll.giveBack
      refine ⟨0, _, pages, rfl, hgone, ⟨m', _, hw'.cloning, rfl⟩, ?_⟩
      obtain ⟨hge, hlt⟩ := hend
      have hcount : freeBelow m₀.pmm totalBlocks = (d :: tables).length + pages.length := by omega
      rw [if_pos rfl, hcount]
      refine ⟨hcount ▸ hlt, hw'.copied, m', _, (tables ++ [d]).map (· * 4096), hw'.cloning, ?_, ?_⟩
      · intro t ht
        obtain ⟨f, hf, rfl⟩ := mem_map.mp ht
        refine ⟨f, rfl, hw'.lent.fresh f (mem_append_right _ ?_)⟩
        exact perm_append_singleton d tables |>.subset hf
      · rw [map_append, foldl_append]
        rfl
    | true =>
      have hstore : m'.store (d * 4096 + 4 * recursivePdeIdx) (entryFor (d * 4096) 3) =
          some (m'.set d 1022 (entryFor (d * 4096) 3)) :=
        hw'.cloning.store_word hm₀ hsafe hd (by omega) (w := 1022) (by decide) _
      obtain ⟨hcount, hcloned⟩ := hend
      have hc' := hw'.cloning.set hm₀ hd 1022 (entryFor (d * 4096) 3)
      refine ⟨d * 4096, m'.set d 1022 (entryFor (d * 4096) 3), pages ++ d :: tables,
        by simp only [if_true, hstore, bind_some], hw'.lent, ⟨_, _, hc', rfl⟩, ?_⟩
      rw [if_neg haddr]
      refine ⟨by omega, by simp, d, rfl, hd, hdrank, hcount ▸ hc', ?_, fun i hi hne => ?_⟩
      · rw [Machine.set_eq_setFrame, Machine.phys_setFrame_same, update_self]
      · refine (hcloned i hi).congr hdrank ?_ fun g _ hgd => Machine.phys_setFrame_of_ne hgd
        rw [Machine.set_eq_setFrame, Machine.phys_setFrame_same, update_of_ne hne]

theorem clonePageDirectory_spec : ∃ dst m', clonePageDirectory m₀ (currentPageDir m₀) = some (dst, m') ∧
      (dst = 0 → freeBelow m₀.pmm totalBlocks < framesBefore m₀ 1024 ∧ Undone m₀ m') ∧
      (dst ≠ 0 → ∃ d, dst = d * 4096 ∧ Free m₀ d ∧ freeBelow m₀.pmm d = 0 ∧
        Cloning m₀ m' (framesBefore m₀ 1024) ∧ m'.phys d 1022 = entryFor (d * 4096) 3 ∧
        ∀ i, i < 1024 → i ≠ 1022 → EntryCloned m₀ m' d i) := by
  obtain ⟨dst, m', frames, hrun, -, -, hend⟩ := clonePageDirectory_frames hm₀ hsafe
  refine ⟨dst, m', hrun, fun hzero => ?_, fun hne => ?_⟩
  · rw [if_pos hzero] at hend
    exact ⟨hend.1, hend.2.2⟩
  · rw [if_neg hne] at hend
    exact hend.2.2

end Directory

end JexOs.Paging
