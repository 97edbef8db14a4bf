import JexOs.Paging
import JexOs.Proof.Pmm

/-!
# Accesses through the page tables

`Direct m f` says that the page at the physical address of frame `f` is that frame: it holds of the frames whose
identity page is still in place and that are not page tables of the current directory. `Layout` is what
`init_paging` and `map_page` keep of the current directory.
-/

namespace JexOs.Paging

open Pmm (Booted kernelPages totalBlocks)
open Option Function List

def Machine.pde (m : Machine) (i : Nat) : Nat := m.phys m.dir i

def Machine.pte (m : Machine) (i j : Nat) : Nat := m.phys (frameOf (m.pde i)) j

def Machine.setFrame (m : Machine) (f : Nat) (words : Nat → Nat) : Machine :=
  { m with phys := Function.update m.phys f words }

def Structural (m : Machine) (f : Nat) : Prop :=
  f = m.dir ∨ ∃ i, i < 1024 ∧ present (m.pde i) ∧ frameOf (m.pde i) = f

def UserPte (m : Machine) (i j : Nat) : Prop := present (m.pte i j) ∧ userBit (m.pte i j)

instance (m : Machine) (i j : Nat) : Decidable (UserPte m i j) := inferInstanceAs (Decidable (_ ∧ _))

def Free (m : Machine) (f : Nat) : Prop :=
  f < totalBlocks ∧ Bitmap.test m.pmm.bitmap f = false

structure Intact (m : Machine) (f : Nat) : Prop where
  range : f < 1048576
  table : present (m.pde (f / 1024))
  page : present (m.pte (f / 1024) (f % 1024))
  frame : frameOf (m.pte (f / 1024) (f % 1024)) = f

def Direct (m : Machine) (f : Nat) : Prop :=
  ∀ words w, w < 1024 → (m.setFrame f words).translate (f * 4096 + 4 * w) = some (f, w)

section Frames

variable {m : Machine} {f : Nat}

theorem Machine.set_eq_setFrame (m : Machine) (f w v : Nat) :
    m.set f w v = m.setFrame f (Function.update (m.phys f) w v) := rfl

@[simp] theorem Machine.setFrame_setFrame (m : Machine) (f : Nat) (words words' : Nat → Nat) :
    (m.setFrame f words).setFrame f words' = m.setFrame f words' := by
  simp [setFrame]

@[simp] theorem Machine.setFrame_phys_self (m : Machine) (f : Nat) : m.setFrame f (m.phys f) = m := by
  simp [setFrame]

@[simp] theorem Machine.phys_setFrame_same (m : Machine) (f : Nat) (words : Nat → Nat) :
    (m.setFrame f words).phys f = words := by
  simp [setFrame]

variable {words : Nat → Nat} {i w va v : Nat}

theorem Machine.phys_setFrame_of_ne {g : Nat} (hne : g ≠ f) : (m.setFrame f words).phys g = m.phys g := by
  simp [setFrame, hne]

theorem Machine.pde_setFrame (hne : f ≠ m.dir) (i : Nat) : (m.setFrame f words).pde i = m.pde i :=
  congrFun (Machine.phys_setFrame_of_ne (Ne.symm hne)) i

theorem Structural.table (hi : i < 1024) (hpresent : present (m.pde i)) : Structural m (frameOf (m.pde i)) :=
  .inr ⟨i, hi, hpresent, rfl⟩

theorem translate_eq (m : Machine) (va : Nat) : m.translate va = if m.active then
        if present (m.pde (va / 4194304 % 1024)) then
          if present (m.pte (va / 4194304 % 1024) (va / 4096 % 1024)) then
            some (frameOf (m.pte (va / 4194304 % 1024) (va / 4096 % 1024)), va / 4 % 1024)
          else none
        else none
      else some (va / 4096, va / 4 % 1024) := rfl

theorem Machine.pte_setFrame (hplain : ¬ Structural m f) (hi : i < 1024)
    (hpresent : present (m.pde i)) (j : Nat) :
    (m.setFrame f words).pte i j = m.pte i j := by
  have hdir : f ≠ m.dir := fun heq => hplain (.inl heq)
  have hne : frameOf (m.pde i) ≠ f := fun heq => hplain (heq ▸ Structural.table hi hpresent)
  unfold pte
  rw [pde_setFrame hdir, phys_setFrame_of_ne hne]

theorem translate_setFrame (hplain : ¬ Structural m f) (va : Nat) :
    (m.setFrame f words).translate va = m.translate va := by
  have hdir : f ≠ m.dir := fun heq => hplain (.inl heq)
  have hactive : (m.setFrame f words).active = m.active := rfl
  rw [translate_eq, translate_eq m, hactive]
  simp only [Machine.pde_setFrame hdir]
  by_cases hpresent : present (m.pde (va / 4194304 % 1024))
  · simp only [Machine.pte_setFrame hplain (Nat.mod_lt _ (by decide)) hpresent]
  · simp only [hpresent, if_false]

theorem translate_identity (hactive : m.active = true) (hintact : Intact m f)
    (hw : w < 1024) : m.translate (f * 4096 + 4 * w) = some (f, w) := by
  have hrange := hintact.range
  have htable : (f * 4096 + 4 * w) / 4194304 % 1024 = f / 1024 := by omega
  have hpage : (f * 4096 + 4 * w) / 4096 % 1024 = f % 1024 := by omega
  have hword : (f * 4096 + 4 * w) / 4 % 1024 = w := by omega
  rw [translate_eq, htable, hpage, hword, if_pos hactive, if_pos hintact.table,
    if_pos hintact.page, hintact.frame]

theorem direct_of_inactive (hinactive : m.active = false) (f : Nat) : Direct m f := by
  intro words w hw
  have hframe : (f * 4096 + 4 * w) / 4096 = f := by omega
  have hword : (f * 4096 + 4 * w) / 4 % 1024 = w := by omega
  unfold Machine.translate
  rw [hframe, hword]
  simp [Machine.setFrame, hinactive]

theorem direct_of_intact (hactive : m.active = true) (hintact : Intact m f)
    (hplain : ¬ Structural m f) : Direct m f := by
  intro words w hw
  rw [translate_setFrame hplain]
  exact translate_identity hactive hintact hw

theorem Direct.setFrame (hdirect : Direct m f) (words : Nat → Nat) : Direct (m.setFrame f words) f := by
  intro words' w hw
  rw [Machine.setFrame_setFrame]
  exact hdirect words' w hw

theorem Direct.translate (hdirect : Direct m f)
    (hw : w < 1024) : m.translate (f * 4096 + 4 * w) = some (f, w) := by
  have htranslate := hdirect (m.phys f) w hw
  rwa [Machine.setFrame_phys_self] at htranslate

theorem store_of_translate (htranslate : m.translate va = some (f, w)) :
    m.store va v = some (m.set f w v) := by
  simp [Machine.store, htranslate]

theorem store_pmm {m' : Machine} (hstore : m.store va v = some m') : m'.pmm = m.pmm := by
  obtain ⟨x, -, rfl⟩ := map_eq_some_iff.mp hstore
  rfl

theorem load_of_translate (htranslate : m.translate va = some (f, w)) : m.load va = some (m.phys f w) := by
  simp [Machine.load, htranslate]

def firstWords (n : Nat) (new old : Nat → Nat) (w : Nat) : Nat := if w < n then new w else old w

theorem firstWords_succ (n : Nat) (new old : Nat → Nat) :
    Function.update (firstWords n new old) n (new n) = firstWords (n + 1) new old := by
  funext w
  unfold firstWords
  by_cases heq : w = n
  · subst heq
    simp
  · rw [update_of_ne heq]
    have hiff : w < n ↔ w < n + 1 := by omega
    simp only [hiff]

theorem firstWords_of_lt {n : Nat} {new old : Nat → Nat}
    (hw : w < n) : firstWords n new old w = new w := if_pos hw

theorem zeroPage_direct (hdirect : Direct m f) :
    m.zeroPage (f * 4096) = some (m.setFrame f (firstWords 1024 (fun _ => 0) (m.phys f))) := by
  have hloop : ∀ n, n ≤ 1024 →
      (List.range n).foldlM (fun m w => m.store (f * 4096 + 4 * w) 0) m =
        some (m.setFrame f (firstWords n (fun _ => 0) (m.phys f))) := by
    intro n
    induction n with
    | zero =>
      intro _
      have hnone : firstWords 0 (fun _ => 0) (m.phys f) = m.phys f := by
        funext w
        simp [firstWords]
      rw [hnone, Machine.setFrame_phys_self]
      rfl
    | succ n ih =>
      intro hn
      rw [range_succ, foldlM_append, ih (by omega)]
      have hstore := store_of_translate (v := 0) (hdirect (firstWords n (fun _ => 0) (m.phys f)) n (by omega))
      rw [Machine.set_eq_setFrame, Machine.setFrame_setFrame, Machine.phys_setFrame_same] at hstore
      have hnext : Function.update (firstWords n (fun _ => 0) (m.phys f)) n 0 =
          firstWords (n + 1) (fun _ => 0) (m.phys f) := firstWords_succ n (fun _ => 0) (m.phys f)
      rw [hnext] at hstore
      simp [hstore]
  exact hloop 1024 le_rfl

theorem copyPage_direct {s : Nat} (hdirect : Direct m f) (hne : s ≠ f)
    (hsource : ∀ words w, w < 1024 → (m.setFrame f words).translate (s * 4096 + 4 * w) = some (s, w)) :
    m.copyPage (f * 4096) (s * 4096) = some (m.setFrame f (firstWords 1024 (m.phys s) (m.phys f))) := by
  have hloop : ∀ n, n ≤ 1024 →
      (List.range n).foldlM (fun m w => do m.store (f * 4096 + 4 * w) (← m.load (s * 4096 + 4 * w))) m =
        some (m.setFrame f (firstWords n (m.phys s) (m.phys f))) := by
    intro n
    induction n with
    | zero =>
      intro _
      have hnone : firstWords 0 (m.phys s) (m.phys f) = m.phys f := by
        funext w
        simp [firstWords]
      rw [hnone, Machine.setFrame_phys_self]
      rfl
    | succ n ih =>
      intro hn
      rw [range_succ, foldlM_append, ih (by omega)]
      have hload := load_of_translate (hsource (firstWords n (m.phys s) (m.phys f)) n (by omega))
      rw [Machine.phys_setFrame_of_ne hne] at hload
      have hstore := store_of_translate (v := m.phys s n)
        (hdirect (firstWords n (m.phys s) (m.phys f)) n (by omega))
      rw [Machine.set_eq_setFrame, Machine.setFrame_setFrame, Machine.phys_setFrame_same,
        firstWords_succ] at hstore
      simp [hload, hstore]
  exact hloop 1024 le_rfl

def selfMapped (f : Nat) (old : Nat → Nat) : Nat → Nat :=
  Function.update (firstWords 1024 (fun _ => 0) old) 0 (entryFor (f * 4096) 3)

theorem store_self_direct (hdirect : Direct m f) :
    (m.setFrame f (firstWords 1024 (fun _ => 0) (m.phys f))).store (f * 4096)
        (entryFor (f * 4096) 3) = some (m.setFrame f (selfMapped f (m.phys f))) := by
  have hself := store_of_translate (v := entryFor (f * 4096) 3)
    ((hdirect.setFrame (firstWords 1024 (fun _ => 0) (m.phys f))).translate (w := 0) (by decide))
  rwa [Machine.set_eq_setFrame, Machine.setFrame_setFrame, Machine.phys_setFrame_same,
    Nat.mul_zero, Nat.add_zero] at hself

end Frames

theorem frameOf_entryFor (phys flags : Nat) : frameOf (entryFor phys flags) = phys / 4096 := by
  unfold frameOf entryFor
  omega

theorem present_entryFor (phys flags : Nat) : present (entryFor phys flags) ↔ flags % 2 = 1 := by
  unfold present entryFor
  omega

theorem userBit_entryFor (phys flags : Nat) : userBit (entryFor phys flags) ↔ userBit flags := by
  unfold userBit entryFor
  omega

theorem translate_window {m : Machine} {i w : Nat} (hactive : m.active = true)
    (hrecursive : m.pde 1022 = entryFor (m.dir * 4096) 3) (hi : i < 1024) (hw : w < 1024) :
    m.translate (ptePtr i + 4 * w) = if present (m.pde i) then some (frameOf (m.pde i), w) else none := by
  have hbase : ptePtr i + 4 * w = 4286578688 + i * 4096 + 4 * w := by
    unfold ptePtr recursivePdeBase
    omega
  have htable : (ptePtr i + 4 * w) / 4194304 % 1024 = 1022 := by omega
  have hpage : (ptePtr i + 4 * w) / 4096 % 1024 = i := by omega
  have hword : (ptePtr i + 4 * w) / 4 % 1024 = w := by omega
  have hpresent : present (m.pde 1022) := by
    rw [hrecursive, present_entryFor]
  have hpte : m.pte 1022 i = m.pde i := by
    unfold Machine.pte
    rw [hrecursive, frameOf_entryFor, Nat.mul_div_cancel _ (by decide)]
    rfl
  rw [translate_eq, htable, hpage, hword, hpte, if_pos hactive, if_pos hpresent]

/-- The current directory as `init_paging` leaves it and `map_page` keeps it. -/
structure Layout (m : Machine) : Prop where
  active : m.active = true
  recursive : m.pde 1022 = entryFor (m.dir * 4096) 3
  dirTaken : m.dir < totalBlocks ∧ Bitmap.test m.pmm.bitmap m.dir = true
  booted : Booted m.pmm
  low : ∀ i, i < 128 → present (m.pde i)
  outside : ∀ i, i < 1024 → i ≠ 1022 → present (m.pde i) → frameOf (m.pde i) ≠ m.dir
  table : ∀ i, i < 1024 → i ≠ 1022 → present (m.pde i) →
    kernelPages ≤ frameOf (m.pde i) ∧ frameOf (m.pde i) < totalBlocks ∧
      Bitmap.test m.pmm.bitmap (frameOf (m.pde i)) = true
  apart : ∀ i j, i < 1024 → j < 1024 → i ≠ 1022 → j ≠ 1022 → present (m.pde i) →
    present (m.pde j) → frameOf (m.pde i) = frameOf (m.pde j) → i = j
  absent : ∀ i, i < 1024 → ¬ present (m.pde i) → m.pde i = 0

section Current

variable {m m' : Machine} (hm : Layout m)

include hm

theorem Layout.recursive_frame : frameOf (m.pde 1022) = m.dir := by
  rw [hm.recursive, frameOf_entryFor]
  omega

theorem Layout.pte_recursive (j : Nat) : m.pte 1022 j = m.pde j := by
  unfold Machine.pte
  rw [hm.recursive_frame]
  rfl

variable {i f k : Nat}

theorem Layout.window {w : Nat} (hi : i < 1024) (hpresent : present (m.pde i)) (hw : w < 1024) :
    m.translate (ptePtr i + 4 * w) = some (frameOf (m.pde i), w) := by
  rw [translate_window hm.active hm.recursive hi hw, if_pos hpresent]

section

variable (hclear : Bitmap.test m.pmm.bitmap f = false)

include hclear

theorem Layout.ne_dir_of_clear : f ≠ m.dir := by
  rintro rfl
  rw [hm.dirTaken.2] at hclear
  cases hclear

omit hclear in
theorem Layout.set_table_pde (hi : i < 1024) (hne : i ≠ 1022) (hpresent : present (m.pde i)) (w v k : Nat) :
    (m.set (frameOf (m.pde i)) w v).pde k = m.pde k :=
  Machine.pde_setFrame (hm.outside i hi hne hpresent) k

theorem Layout.not_structural_of_clear : ¬ Structural m f := by
  have hdir := hm.ne_dir_of_clear hclear
  rintro (heq | ⟨i, hi, hpresent, rfl⟩)
  · exact hdir heq
  · by_cases hne : i = 1022
    · subst hne
      exact hdir hm.recursive_frame
    · rw [(hm.table i hi hne hpresent).2.2] at hclear
      cases hclear

theorem Layout.table_ne_of_clear (hk : k < 1024) (hne : k ≠ 1022) (hpresent : present (m.pde k)) : frameOf
    (m.pde k) ≠ f := by
  intro heq
  rw [← heq, (hm.table k hk hne hpresent).2.2] at hclear
  cases hclear

theorem Layout.direct (hintact : Intact m f) : Direct m f :=
  direct_of_intact hm.active hintact (hm.not_structural_of_clear hclear)

end

theorem Layout.update (hdir : m'.dir = m.dir) (hactive : m'.active = m.active) (hbooted : Booted m'.pmm)
    (hbits : ∀ f, Bitmap.test m.pmm.bitmap f = true → Bitmap.test m'.pmm.bitmap f = true)
    (hi : i ≠ 1022) (hother : ∀ k, k ≠ i → m'.pde k = m.pde k) (hpresent : present (m'.pde i))
    (hplain : frameOf (m'.pde i) ≠ m.dir)
    (htable : kernelPages ≤ frameOf (m'.pde i) ∧ frameOf (m'.pde i) < totalBlocks ∧
      Bitmap.test m'.pmm.bitmap (frameOf (m'.pde i)) = true)
    (hfresh : ∀ k, k < 1024 → k ≠ 1022 → k ≠ i → present (m.pde k) →
      frameOf (m.pde k) ≠ frameOf (m'.pde i)) : Layout m' :=
  { active := hactive.trans hm.active
    recursive := by rw [hother 1022 (Ne.symm hi), hm.recursive, hdir]
    dirTaken := hdir ▸ ⟨hm.dirTaken.1, hbits _ hm.dirTaken.2⟩
    booted := hbooted
    low := by
      intro k hk
      by_cases heq : k = i
      · exact heq ▸ hpresent
      · rw [hother k heq]
        exact hm.low k hk
    outside := by
      intro k hk hne hk'
      rw [hdir]
      by_cases heq : k = i
      · exact heq ▸ hplain
      · rw [hother k heq] at hk' ⊢
        exact hm.outside k hk hne hk'
    table := by
      intro k hk hne hk'
      by_cases heq : k = i
      · exact heq ▸ htable
      · rw [hother k heq] at hk' ⊢
        obtain ⟨hlow, hhigh, hset⟩ := hm.table k hk hne hk'
        exact ⟨hlow, hhigh, hbits _ hset⟩
    apart := by
      intro k l hk hl hkne hlne hkp hlp hframes
      by_cases hki : k = i
      · subst hki
        by_contra hkl
        rw [hother l (Ne.symm hkl)] at hlp hframes
        exact hfresh l hl hlne (Ne.symm hkl) hlp hframes.symm
      · rw [hother k hki] at hkp hframes
        by_cases hli : l = i
        · subst hli
          exact absurd hframes (hfresh k hk hkne hki hkp)
        · rw [hother l hli] at hlp hframes
          exact hm.apart k l hk hl hkne hlne hkp hlp hframes
    absent := by
      intro k hk hkp
      by_cases heq : k = i
      · exact absurd (heq ▸ hpresent) hkp
      · rw [hother k heq] at hkp ⊢
        exact hm.absent k hk hkp }

theorem Layout.of_pde_eq (hdir : m'.dir = m.dir) (hactive : m'.active = m.active) (hbooted : Booted m'.pmm)
    (hbits : ∀ f, Bitmap.test m.pmm.bitmap f = true → Bitmap.test m'.pmm.bitmap f = true)
    (hpde : ∀ i, m'.pde i = m.pde i) : Layout m' := by
  refine hm.update (i := 0) hdir hactive hbooted hbits (by decide) (fun k _ => hpde k) ?_ ?_ ?_ ?_
  · rw [hpde]
    exact hm.low 0 (by decide)
  · rw [hpde]
    exact hm.outside 0 (by decide) (by decide) (hm.low 0 (by decide))
  · rw [hpde]
    obtain ⟨hlow, hhigh, hset⟩ := hm.table 0 (by decide) (by decide) (hm.low 0 (by decide))
    exact ⟨hlow, hhigh, hbits _ hset⟩
  · intro k hk hne hk0 hkp heq
    rw [hpde] at heq
    exact hk0 (hm.apart k 0 hk (by decide) hne (by decide) hkp (hm.low 0 (by decide)) heq)

theorem Layout.pte_set_table (hi : i < 1024) (hk : k < 1024) (hine : i ≠ 1022)
    (hkne : k ≠ 1022) (hip : present (m.pde i)) (hkp : present (m.pde k)) (j l v : Nat) :
    (m.set (frameOf (m.pde i)) j v).pte k l = if k = i ∧ l = j then v else m.pte k l := by
  unfold Machine.pte
  rw [hm.set_table_pde hi hine hip]
  by_cases hki : k = i
  · subst hki
    rw [Machine.set_eq_setFrame, Machine.phys_setFrame_same]
    by_cases hlj : l = j <;> simp [hlj]
  · have hne : frameOf (m.pde k) ≠ frameOf (m.pde i) :=
      fun heq => hki (hm.apart k i hk hi hkne hine hkp hip heq)
    rw [Machine.set_eq_setFrame, Machine.phys_setFrame_of_ne hne]
    simp [hki]

theorem Layout.load_pde (hdir : Intact m m.dir)
    (hi : i < 1024) : m.load (currentPageDir m + 4 * i) = some (m.pde i) :=
  load_of_translate (translate_identity hm.active hdir hi)

theorem Layout.store_pde (hdir : Intact m m.dir) (hi : i < 1024) (v : Nat) :
    m.store (currentPageDir m + 4 * i) v = some (m.set m.dir i v) :=
  store_of_translate (translate_identity hm.active hdir hi)

end Current

theorem Machine.set_self (m : Machine) (f w : Nat) : m.set f w (m.phys f w) = m := by
  simp [set]

theorem Machine.pde_set_dir (m : Machine)
    (i v k : Nat) : (m.set m.dir i v).pde k = Function.update m.pde i v k := by
  simp [pde, set, Function.update]

theorem frameOf_entryFor_frame (f flags : Nat) : frameOf (entryFor (f * 4096) flags) = f := by
  rw [frameOf_entryFor, Nat.mul_div_cancel _ (by decide)]

theorem Layout.enter {m : Machine} {f i flags : Nat} (hm : Layout m) (hi : i ≠ 1022)
    (hodd : flags % 2 = 1) (hlow : kernelPages ≤ f) (hhigh : f < totalBlocks) (hdir : f ≠ m.dir)
    (hset : Bitmap.test m.pmm.bitmap f = true)
    (hfresh : ∀ k, k < 1024 → k ≠ 1022 → k ≠ i → present (m.pde k) → frameOf (m.pde k) ≠ f) :
    Layout (m.set m.dir i (entryFor (f * 4096) flags)) := by
  have hself : (m.set m.dir i (entryFor (f * 4096) flags)).pde i = entryFor (f * 4096) flags := by
    rw [Machine.pde_set_dir, update_self]
  refine hm.update rfl rfl hm.booted (fun _ hg => hg) hi ?_ ?_ ?_ ?_ ?_
  · intro k hne
    rw [Machine.pde_set_dir, update_of_ne hne]
  · rw [hself, present_entryFor]
    exact hodd
  · rw [hself, frameOf_entryFor_frame]
    exact hdir
  · rw [hself, frameOf_entryFor_frame]
    exact ⟨hlow, hhigh, hset⟩
  · rw [hself, frameOf_entryFor_frame]
    exact hfresh

def grantUser (flags entry : Nat) : Nat :=
  if userBit flags ∧ ¬ userBit entry then entry + 4 else entry

theorem frameOf_grantUser (flags entry : Nat) : frameOf (grantUser flags entry) = frameOf entry := by
  unfold grantUser frameOf userBit
  split <;> omega

theorem present_grantUser (flags entry : Nat) : present (grantUser flags entry) ↔ present entry := by
  unfold grantUser present userBit
  split <;> omega

section MapPage

variable {m : Machine} {va : Nat} (phys flags : Nat)

theorem table_of_user (hva : va < 0xC0000000) : va / 4194304 < 1024 ∧ va / 4194304 ≠ 1022 := by
  omega

theorem tablePointer_current (hactive : m.active = true) (i tableAddr : Nat) :
    tablePointer m (currentPageDir m) i tableAddr = some (ptePtr i, m) := by
  simp [tablePointer, hactive]

theorem Layout.store_pte (hm : Layout m) {i j : Nat} (hi : i < 1024) (hj : j < 1024)
    (hpresent : present (m.pde i))
    (v : Nat) : m.store (ptePtr i + j * 4) v = some (m.set (frameOf (m.pde i)) j v) := by
  rw [Nat.mul_comm j 4]
  exact store_of_translate (hm.window hi hpresent hj)

theorem Layout.grantUser (hm : Layout m) {i : Nat} (hi : i < 1024 ∧ i ≠ 1022) (hpresent : present (m.pde i)) :
    Layout (m.set m.dir i (grantUser flags (m.pde i))) := by
  have hself : (m.set m.dir i (Paging.grantUser flags (m.pde i))).pde i =
      Paging.grantUser flags (m.pde i) := by
    rw [Machine.pde_set_dir, update_self]
  refine hm.update rfl rfl hm.booted (fun _ hset => hset) hi.2 ?_ ?_ ?_ ?_ ?_
  · intro k hne
    rw [Machine.pde_set_dir, update_of_ne hne]
  · rw [hself, present_grantUser]
    exact hpresent
  · rw [hself, frameOf_grantUser]
    exact hm.outside i (by omega) (by omega) hpresent
  · rw [hself, frameOf_grantUser]
    exact hm.table i (by omega) (by omega) hpresent
  · intro k hk hne hki hkp
    rw [hself, frameOf_grantUser]
    exact fun heq => hki (hm.apart k i hk (by omega) hne (by omega) hkp hpresent heq)

theorem Layout.set_table (hm : Layout m) {i : Nat} (hi : i < 1024 ∧ i ≠ 1022) (hpresent : present (m.pde i))
    (j v : Nat) : Layout (m.set (frameOf (m.pde i)) j v) :=
  hm.of_pde_eq rfl rfl hm.booted (fun _ hg => hg)
    (hm.set_table_pde (by omega) (by omega) hpresent j v)

def mapped (m : Machine) (i j entry flags : Nat) : Machine :=
  (m.set m.dir i (grantUser flags (m.pde i))).set (frameOf (m.pde i)) j entry

section Mapped

variable {i : Nat} (hm : Layout m) (hi : i < 1024 ∧ i ≠ 1022) (hpresent : present (m.pde i)) (j entry : Nat)

include hm hi hpresent

theorem mapped_pde (k : Nat) :
    (mapped m i j entry flags).pde k = Function.update m.pde i (grantUser flags (m.pde i)) k := by
  have hne : frameOf (m.pde i) ≠ (m.set m.dir i (grantUser flags (m.pde i))).dir :=
    hm.outside i (by omega) (by omega) hpresent
  rw [← Machine.pde_set_dir]
  exact Machine.pde_setFrame hne k

theorem mapped_present (k : Nat) : (present ((mapped m i j entry flags).pde k) ↔ present (m.pde k)) ∧
      frameOf ((mapped m i j entry flags).pde k) = frameOf (m.pde k) := by
  rw [mapped_pde _ hm hi hpresent]
  by_cases heq : k = i
  · subst heq
    rw [update_self]
    exact ⟨present_grantUser _ _, frameOf_grantUser _ _⟩
  · rw [update_of_ne heq]
    exact ⟨Iff.rfl, rfl⟩

theorem mapped_pte {k : Nat} (hk : k < 1024) (hne : k ≠ 1022) (hkp : present (m.pde k)) (l : Nat) :
    (mapped m i j entry flags).pte k l = if k = i ∧ l = j then entry else m.pte k l := by
  have hdir : frameOf (m.pde k) ≠ m.dir := hm.outside k hk hne hkp
  unfold Machine.pte
  rw [(mapped_present _ hm hi hpresent j entry k).2]
  unfold mapped
  by_cases hki : k = i
  · subst hki
    rw [Machine.set_eq_setFrame, Machine.phys_setFrame_same, Machine.set_eq_setFrame,
      Machine.phys_setFrame_of_ne hdir]
    by_cases hlj : l = j <;> simp [hlj]
  · have hframe : frameOf (m.pde k) ≠ frameOf (m.pde i) :=
      fun heq => hki (hm.apart k i hk (by omega) hne (by omega) hkp hpresent heq)
    rw [Machine.set_eq_setFrame, Machine.phys_setFrame_of_ne hframe, Machine.set_eq_setFrame,
      Machine.phys_setFrame_of_ne hdir]
    simp [hki]

theorem mapped_structural (f : Nat) : Structural (mapped m i j entry flags) f ↔ Structural m f := by
  unfold Structural
  simp only [mapped_present _ hm hi hpresent]
  rfl

theorem mapped_layout : Layout (mapped m i j entry flags) := by
  have hgranted := hm.grantUser flags hi hpresent
  have hself : (m.set m.dir i (grantUser flags (m.pde i))).pde i = grantUser flags (m.pde i) := by
    rw [Machine.pde_set_dir, update_self]
  have hset := hgranted.set_table (i := i) hi (by rw [hself, present_grantUser]; exact hpresent) j entry
  rwa [hself, frameOf_grantUser] at hset

theorem mapped_intact {f : Nat} (hintact : Intact m f) (hne : f / 1024 ≠ 1022)
    (hother : f ≠ i * 1024 + j) : Intact (mapped m i j entry flags) f := by
  have hrange := hintact.range
  have hcell : ¬ (f / 1024 = i ∧ f % 1024 = j) := by
    rintro ⟨hdiv, hmod⟩
    omega
  have hpte := mapped_pte flags hm hi hpresent j entry (k := f / 1024) (by omega) hne hintact.table (f % 1024)
  rw [if_neg hcell] at hpte
  exact
    { range := hrange
      table := (mapped_present _ hm hi hpresent j entry _).1.mpr hintact.table
      page := by rw [hpte]; exact hintact.page
      frame := by rw [hpte]; exact hintact.frame }

end Mapped

theorem mapPage_of_present (hm : Layout m) (hdir : Intact m m.dir)
    (hva : va / 4194304 < 1024 ∧ va / 4194304 ≠ 1022)
    (hpresent : present (m.pde (va / 4194304))) : mapPage m phys va flags =
      some (0, mapped m (va / 4194304) (va / 4096 % 1024) (entryFor phys flags) flags) := by
  generalize hindex : va / 4194304 = i at *
  have hload := hm.load_pde hdir (i := i) (by omega)
  have htable : getTableIn m (currentPageDir m) i flags =
      some (ptePtr i, m.set m.dir i (grantUser flags (m.pde i))) := by
    unfold getTableIn grantUser
    rw [hload]
    simp only [bind_eq_bind, bind_some, if_pos hpresent]
    split
    · rw [hm.store_pde hdir (by omega), bind_some]
      exact tablePointer_current (m := m.set m.dir i (m.pde i + 4)) hm.active i _
    · rw [show m.pde i = m.phys m.dir i from rfl, Machine.set_self]
      exact tablePointer_current hm.active i _
  have hself : (m.set m.dir i (grantUser flags (m.pde i))).pde i = grantUser flags (m.pde i) := by
    rw [Machine.pde_set_dir, update_self]
  have hstore := (hm.grantUser flags (i := i) (by omega) hpresent).store_pte
    (i := i) (j := va / 4096 % 1024) (by omega) (Nat.mod_lt _ (by decide))
    (by rw [hself, present_grantUser]; exact hpresent) (entryFor phys flags)
  rw [hself, frameOf_grantUser] at hstore
  have hne : ptePtr i ≠ 0 := by
    unfold ptePtr recursivePdeBase
    omega
  unfold mapPage mapPageIn
  rw [hindex, htable]
  simp only [bind_eq_bind, bind_some, if_neg hne, hstore]
  rfl

def fill (m : Machine) (f : Nat) (words : Nat → Nat) : Machine :=
  ({ m with pmm := m.pmm.markUsed f } : Machine).setFrame f words

def unmapIdentity (m : Machine) (f : Nat) : Machine :=
  m.set (frameOf (m.pde (f / 1024))) (f % 1024) (m.pte (f / 1024) (f % 1024) / 2 * 2)

def withTable (m : Machine) (f i flags : Nat) : Machine :=
  (unmapIdentity (fill m f (selfMapped f (m.phys f))) f).set m.dir i (entryFor (f * 4096) flags)

section NewTable

variable {f : Nat} (hm : Layout m) (hf : f < totalBlocks)

include hm hf

theorem Layout.unmapIdentity : Layout (unmapIdentity m f) := by
  have htotal := Pmm.totalBlocks_eq
  exact hm.of_pde_eq rfl rfl hm.booted (fun _ hg => hg)
    (hm.set_table_pde (by omega) (by omega) (hm.low _ (by omega)) _ _)

theorem Layout.identityUnmapFrame : identityUnmapFrame m (f * 4096) = some (Paging.unmapIdentity m f) := by
  have htotal := Pmm.totalBlocks_eq
  have hpresent := hm.low (f / 1024) (by omega)
  have hmod : f % 1024 < 1024 := Nat.mod_lt _ (by decide)
  have hload := load_of_translate (hm.window (by omega) hpresent hmod)
  have hstore := hm.store_pte (by omega) hmod hpresent (m.pte (f / 1024) (f % 1024) / 2 * 2)
  have htable : f * 4096 / 4194304 = f / 1024 := by omega
  have hpage : f * 4096 / 4096 % 1024 = f % 1024 := by omega
  rw [Nat.mul_comm 4] at hload
  unfold Paging.identityUnmapFrame
  simp only [htable, hpage, hm.active, hload, Bool.not_true, Bool.false_eq_true, if_false,
    if_neg (show ¬ f / 1024 > 127 by omega), bind_eq_bind, bind_some]
  exact hstore

theorem Layout.unmapIdentity_intact {g : Nat} (hne : g ≠ f) (hg : g < totalBlocks)
    (hintact : Intact m g) : Intact (Paging.unmapIdentity m f) g := by
  have htotal := Pmm.totalBlocks_eq
  have hcell : ¬ (g / 1024 = f / 1024 ∧ g % 1024 = f % 1024) := by
    rintro ⟨hdiv, hmod⟩
    omega
  have hpde : (Paging.unmapIdentity m f).pde (g / 1024) = m.pde (g / 1024) :=
    hm.set_table_pde (by omega) (by omega) (hm.low _ (by omega)) _ _ _
  have hpte : (Paging.unmapIdentity m f).pte (g / 1024) (g % 1024) = m.pte (g / 1024) (g % 1024) := by
    unfold Paging.unmapIdentity
    rw [hm.pte_set_table (by omega) (by omega) (by omega) (by omega) (hm.low _ (by omega))
      (hm.low _ (by omega)), if_neg hcell]
  exact
    { range := hintact.range
      table := by rw [hpde]; exact hintact.table
      page := by rw [hpte]; exact hintact.page
      frame := by rw [hpte]; exact hintact.frame }

variable (hclear : Bitmap.test m.pmm.bitmap f = false)

include hclear

omit hf in
theorem Layout.fill_pde (words : Nat → Nat) (i : Nat) : (fill m f words).pde i = m.pde i :=
  Machine.pde_setFrame (m := { m with pmm := m.pmm.markUsed f })
    (fun heq => hm.not_structural_of_clear hclear (.inl heq)) i

omit hf in
theorem Layout.fill_pte (words : Nat → Nat) {i : Nat} (hi : i < 1024) (hpresent : present (m.pde i))
    (j : Nat) : (fill m f words).pte i j = m.pte i j :=
  Machine.pte_setFrame (m := { m with pmm := m.pmm.markUsed f })
    (hm.not_structural_of_clear hclear) hi hpresent j

theorem Layout.fill (words : Nat → Nat) : Layout (fill m f words) := by
  refine hm.of_pde_eq rfl rfl (hm.booted.markUsed hf hclear) (fun g hg => ?_) (hm.fill_pde hclear words)
  simp only [Paging.fill, Machine.setFrame, Pmm.State.markUsed, Bitmap.test_set, hg, Bool.or_true]

omit hf in
theorem Layout.fill_intact (words : Nat → Nat) {g : Nat} (hintact : Intact m g) :
    Intact (Paging.fill m f words) g := by
  have hrange := hintact.range
  have hpte := hm.fill_pte hclear words (i := g / 1024) (by omega) hintact.table (g % 1024)
  exact
    { range := hrange
      table := by rw [hm.fill_pde hclear]; exact hintact.table
      page := by rw [hpte]; exact hintact.page
      frame := by rw [hpte]; exact hintact.frame }

theorem getTableIn_of_absent {i : Nat} (hdir : Intact m m.dir) (hi : i < 1024)
    (habsent : ¬ present (m.pde i)) (hintact : Intact m f)
    (halloc : Pmm.pmmAllocBlock m.pmm = (f * 4096, m.pmm.markUsed f)) :
    getTableIn m (currentPageDir m) i flags = some (ptePtr i, withTable m f i flags) := by
  have hkernel : kernelPages = 512 := by decide
  have hlow := hm.booted.kernelPages_le hclear
  have hdirHigh := hm.dirTaken.1
  have hdirNe := hm.ne_dir_of_clear hclear
  have hpos : f * 4096 ≠ 0 := by omega
  have hdirect : Direct { m with pmm := m.pmm.markUsed f } f := hm.direct hclear hintact
  have hzero := zeroPage_direct hdirect
  have hself := store_self_direct hdirect
  have hfilled := hm.fill hf hclear (selfMapped f (m.phys f))
  have hunmap := hfilled.identityUnmapFrame hf
  have hmapped : Intact (Paging.unmapIdentity (Paging.fill m f (selfMapped f (m.phys f))) f) m.dir :=
    hfilled.unmapIdentity_intact hf (by omega) (by omega) (hm.fill_intact hclear _ hdir)
  have hstore : (Paging.unmapIdentity (Paging.fill m f (selfMapped f (m.phys f))) f).store
      (currentPageDir m + 4 * i) (entryFor (f * 4096) flags) = some (withTable m f i flags) :=
    (hfilled.unmapIdentity hf).store_pde hmapped hi (entryFor (f * 4096) flags)
  unfold Paging.fill at hunmap hstore
  unfold getTableIn
  rw [hm.load_pde hdir hi]
  simp only [bind_eq_bind, bind_some, if_neg habsent, allocBlock, halloc, if_neg hpos,
    hzero, hself, hunmap, hstore]
  exact tablePointer_current (m := withTable m f i flags) hm.active i _

theorem withTable_pde (i flags k : Nat) :
    (withTable m f i flags).pde k = Function.update m.pde i (entryFor (f * 4096) flags) k := by
  have htotal := Pmm.totalBlocks_eq
  have hfilled := hm.fill hf hclear (selfMapped f (m.phys f))
  have hunmap : ∀ k, (Paging.unmapIdentity (Paging.fill m f (selfMapped f (m.phys f))) f).pde k =
      m.pde k := fun k =>
    (hfilled.set_table_pde (by omega) (by omega) (hfilled.low _ (by omega)) _ _ k).trans
      (hm.fill_pde hclear _ k)
  have hset : (withTable m f i flags).pde k = Function.update
      (Paging.unmapIdentity (Paging.fill m f (selfMapped f (m.phys f))) f).pde i
      (entryFor (f * 4096) flags) k := Machine.pde_set_dir _ i _ k
  rw [hset, funext hunmap]

theorem Layout.withTable {i : Nat} (hi : i < 1024 ∧ i ≠ 1022) (hodd : flags % 2 = 1) :
    Layout (withTable m f i flags) := by
  have htotal := Pmm.totalBlocks_eq
  have hfilled := hm.fill hf hclear (selfMapped f (m.phys f))
  have hunmapped := hfilled.unmapIdentity hf
  have hmarked := Bitmap.test_set m.pmm.bitmap f f
  rw [decide_eq_true rfl, Bool.true_or] at hmarked
  refine hunmapped.enter hi.2 hodd (hm.booted.kernelPages_le hclear) hf (hm.ne_dir_of_clear hclear) hmarked ?_
  intro k hk hkne _ hkp
  have hpde : (Paging.unmapIdentity (Paging.fill m f (selfMapped f (m.phys f))) f).pde k = m.pde k :=
    (hfilled.set_table_pde (by omega) (by omega) (hfilled.low _ (by omega)) _ _ k).trans
      (hm.fill_pde hclear _ k)
  rw [hpde] at hkp ⊢
  exact hm.table_ne_of_clear hclear hk hkne hkp

end NewTable

theorem mapPage_of_absent {f : Nat} (hm : Layout m) (hdir : Intact m m.dir)
    (hva : va / 4194304 < 1024 ∧ va / 4194304 ≠ 1022) (habsent : ¬ present (m.pde (va / 4194304)))
    (hf : f < totalBlocks) (hclear : Bitmap.test m.pmm.bitmap f = false) (hintact : Intact m f)
    (halloc : Pmm.pmmAllocBlock m.pmm = (f * 4096, m.pmm.markUsed f)) :
    mapPage m phys va flags = if flags % 2 = 1 then
        some (0, (withTable m f (va / 4194304) flags).set f (va / 4096 % 1024) (entryFor phys flags))
      else none := by
  have hj : va / 4096 % 1024 < 1024 := Nat.mod_lt _ (by decide)
  have htable := getTableIn_of_absent flags hm hf hclear hdir hva.1 habsent hintact halloc
  have hself : (withTable m f (va / 4194304) flags).pde (va / 4194304) = entryFor (f * 4096) flags := by
    rw [withTable_pde hm hf hclear, update_self]
  have hrec : (withTable m f (va / 4194304) flags).pde 1022 = entryFor (m.dir * 4096) 3 := by
    rw [withTable_pde hm hf hclear, update_of_ne (by omega), hm.recursive]
  have htranslate := translate_window (m := withTable m f (va / 4194304) flags)
    (i := va / 4194304) hm.active hrec hva.1 hj
  rw [Nat.mul_comm 4, hself, frameOf_entryFor_frame] at htranslate
  have hne : ptePtr (va / 4194304) ≠ 0 := by
    unfold ptePtr recursivePdeBase
    omega
  unfold mapPage mapPageIn
  rw [htable]
  simp only [bind_eq_bind, bind_some, if_neg hne]
  by_cases hodd : flags % 2 = 1
  · rw [if_pos (by rwa [present_entryFor])] at htranslate
    rw [store_of_translate htranslate, if_pos hodd, bind_some]
  · rw [if_neg (by rwa [present_entryFor])] at htranslate
    rw [if_neg hodd]
    simp [Machine.store, htranslate]

theorem mapPage_cases {m' : Machine} {r : Int} (hm : Layout m) (hdir : Intact m m.dir)
    (hva : va / 4194304 < 1024 ∧ va / 4194304 ≠ 1022)
    (hnew : ¬ present (m.pde (va / 4194304)) → ∀ f, f < totalBlocks → Bitmap.test m.pmm.bitmap f = false →
      (∀ g, g < f → Bitmap.test m.pmm.bitmap g = true) → Intact m f) (hrun :
      mapPage m phys va flags = some (r, m')) :
    (present (m.pde (va / 4194304)) ∧
      m' = mapped m (va / 4194304) (va / 4096 % 1024) (entryFor phys flags) flags) ∨
      (¬ present (m.pde (va / 4194304)) ∧ r = enomem ∧ m' = m) ∨
      ¬ present (m.pde (va / 4194304)) ∧ flags % 2 = 1 ∧ ∃ f,
      f < totalBlocks ∧ Bitmap.test m.pmm.bitmap f = false ∧
        m' = (withTable m f (va / 4194304) flags).set f (va / 4096 % 1024) (entryFor phys flags) := by
  by_cases hpresent : present (m.pde (va / 4194304))
  · rw [mapPage_of_present _ _ hm hdir hva hpresent] at hrun
    cases hrun
    exact .inl ⟨hpresent, rfl⟩
  · obtain ⟨-, -, hnone⟩ | ⟨f, hf, hclear, hlowest, -, halloc⟩ := Pmm.pmmAllocBlock_cases hm.booted
    · have hload := hm.load_pde hdir (i := va / 4194304) (by omega)
      unfold mapPage mapPageIn getTableIn at hrun
      rw [hload] at hrun
      simp only [bind_eq_bind, bind_some, if_neg hpresent, allocBlock, hnone,
        if_true, some.injEq, Prod.mk.injEq] at hrun
      exact .inr (.inl ⟨hpresent, hrun.1.symm, hrun.2.symm⟩)
    · rw [mapPage_of_absent _ _ hm hdir hva hpresent hf hclear
        (hnew hpresent f hf hclear hlowest) halloc] at hrun
      split at hrun
      · cases hrun
        exact .inr (.inr ⟨hpresent, ‹_›, f, hf, hclear, rfl⟩)
      · cases hrun

theorem mapPage_layout {m' : Machine} {r : Int} (hm : Layout m) (hdir : Intact m m.dir)
    (hva : va / 4194304 < 1024 ∧ va / 4194304 ≠ 1022)
    (hnew : ¬ present (m.pde (va / 4194304)) → ∀ f, f < totalBlocks → Bitmap.test m.pmm.bitmap f = false →
      (∀ g, g < f → Bitmap.test m.pmm.bitmap g = true) → Intact m f)
    (hrun : mapPage m phys va flags = some (r, m')) : Layout m' := by
  obtain ⟨hpresent, rfl⟩ | ⟨-, -, rfl⟩ | ⟨-, hodd, f, hf, hclear, rfl⟩ :=
    mapPage_cases _ _ hm hdir hva hnew hrun
  · exact mapped_layout _ hm hva hpresent _ _
  · exact hm
  · have hself : (withTable m f (va / 4194304) flags).pde (va / 4194304) =
        entryFor (f * 4096) flags := by
      rw [withTable_pde hm hf hclear, update_self]
    have hset := (hm.withTable _ hf hclear hva hodd).set_table hva
      (by rwa [hself, present_entryFor]) (va / 4096 % 1024) (entryFor phys flags)
    rwa [hself, frameOf_entryFor_frame] at hset

end MapPage

end JexOs.Paging
