import JexOs.Proof.PagingClone
import Mathlib.Algebra.BigOperators.Group.Finset.Piecewise
import Mathlib.Algebra.Order.BigOperators.Group.Finset

/-!
# Forking an address space

Runs of `map_page` from `init_paging` on, and what a clone of the directory they reach has in common
with its source.
-/

namespace JexOs.Paging

open Pmm (Booted Taken freeBelow kernelPages totalBlocks)

def entryAt (m : Machine) (dir i j : Nat) : Nat := m.phys (frameOf (m.phys dir i)) j

def UserPage (m : Machine) (dir i j : Nat) : Prop :=
  present (m.phys dir i) ∧ userBit (m.phys dir i) ∧ present (entryAt m dir i j) ∧
    userBit (entryAt m dir i j)

/-- The directory `d` in `m'` is a private copy of the current directory of `m`. -/
structure Isolated (m m' : Machine) (d : Nat) : Prop where
  page : ∀ i j, i < 1024 → j < 1024 → UserPage m m.dir i j →
    UserPage m' d i j ∧ entryAt m' d i j % 4096 = entryAt m m.dir i j % 4096
  unshared : ∀ i j k l, i < 1024 → j < 1024 → k < 1024 → l < 1024 → UserPage m m.dir i j →
    UserPage m m.dir k l → frameOf (entryAt m m.dir k l) ≠ frameOf (entryAt m' d i j)
  apart : ∀ i j k l, i < 1024 → j < 1024 → k < 1024 → l < 1024 → UserPage m m.dir i j →
    UserPage m' d k l → frameOf (entryAt m' d k l) = frameOf (entryAt m' d i j) → k = i ∧ l = j
  contents : ∀ i j, i < 1024 → j < 1024 → UserPage m m.dir i j → ∀ w, w < 1024 →
    m'.phys (frameOf (entryAt m' d i j)) w = m.phys (frameOf (entryAt m m.dir i j)) w ∧
      m'.phys (frameOf (entryAt m m.dir i j)) w = m.phys (frameOf (entryAt m m.dir i j)) w
  shared : ∀ i, i < 1024 → ¬ userBit (m.phys m.dir i) → i ≠ 32 → i ≠ 1022 →
    m'.phys d i = m.phys m.dir i

/-- The condition for a clone: no table that is copied has a user page in its entry 0, and the clone
can rely on the identity map. -/
structure CloneSafe (m : Machine) : Prop extends CopySafe m where
  noFirst : ∀ i, i < 1024 → Deep m i → ¬ UserPte m i 0

theorem frameOf_clonedPde (p entry : Nat) : frameOf (clonedPde (p * 4096) entry) = p := by
  unfold frameOf clonedPde
  omega

theorem present_clonedPde (pt entry : Nat) : present (clonedPde pt entry) := by
  unfold present clonedPde
  omega

theorem userBit_clonedPde (pt entry : Nat) : userBit (clonedPde pt entry) := by
  unfold userBit clonedPde
  omega

variable {m m' : Machine}

theorem page_rank_inj {i j k l : Nat} (hj : j < 1024) (hl : l < 1024)
    (hi : Deep m i) (hk : Deep m k) (hij : UserPte m i j) (hkl : UserPte m k l)
    (heq : framesBefore m k + 1 + pagesBelow m k l = framesBefore m i + 1 + pagesBelow m i j) :
    k = i ∧ l = j := by
  have hbelow : ∀ {i j}, j < 1024 → Deep m i → UserPte m i j →
      framesBefore m i + 1 + pagesBelow m i j < framesBefore m (i + 1) := by
    intro i j hj hdeep huser
    have hcount : pagesBelow m i (j + 1) ≤ pagesBelow m i 1024 := pagesBelow_mono m i (by omega)
    rw [pagesBelow_succ, if_pos huser] at hcount
    rw [framesBefore_succ, if_pos hdeep]
    omega
  have hkbelow := hbelow hl hk hkl
  have hibelow := hbelow hj hi hij
  obtain hlt | rfl | hlt := lt_trichotomy k i
  · have hmono := framesBefore_mono m (show k + 1 ≤ i from hlt)
    omega
  · refine ⟨rfl, ?_⟩
    have hcount : pagesBelow m k l = pagesBelow m k j := by omega
    exact Nat.count_injective hkl hij hcount
  · have hmono := framesBefore_mono m (show i + 1 ≤ k from hlt)
    omega

section Isolation

variable {m m' : Machine} {d : Nat} (hsafe : CloneSafe m)
  (hcloned : ∀ i, i < 1024 → i ≠ 1022 → EntryCloned m m' d i)

include hsafe hcloned

theorem clone_page (hm : Layout m) {i j : Nat} (hi : i < 1024) (hj : j < 1024) (huser : UserPage m m.dir i j) :
    Deep m i ∧ UserPte m i j ∧ UserPage m' d i j ∧ ∃ g, Free m g ∧
      freeBelow m.pmm g = framesBefore m i + 1 + pagesBelow m i j ∧
      entryAt m' d i j = m.pte i j % 4096 + g * 4096 ∧
      ∀ w, w < 1024 → m'.phys g w = m.phys (frameOf (m.pte i j)) w := by
  have hdeep : Deep m i := ⟨huser.1, .inl huser.2.1⟩
  have hpte : UserPte m i j := ⟨huser.2.2.1, huser.2.2.2⟩
  have hne : i ≠ 1022 := fun heq => hm.not_deep_recursive (heq ▸ hdeep)
  have hpos : 0 < j := by
    by_contra hzero
    obtain rfl : j = 0 := by omega
    exact hsafe.noFirst i hi hdeep hpte
  have hentry := hcloned i hi hne
  unfold EntryCloned at hentry
  rw [if_pos hdeep] at hentry
  obtain ⟨p, hpde, hcopied⟩ := hentry
  obtain ⟨g, hg, hrank, hword, hpage⟩ := hcopied.pages j hpos hj hpte
  have hat : entryAt m' d i j = m.pte i j % 4096 + g * 4096 := by
    unfold entryAt
    rw [hpde, frameOf_clonedPde, hword]
  refine ⟨hdeep, hpte, ⟨?_, ?_, ?_, ?_⟩, g, hg, hrank, hat, hpage⟩
  · rw [hpde]
    exact present_clonedPde _ _
  · rw [hpde]
    exact userBit_clonedPde _ _
  · have hpresent : m.pte i j % 2 = 1 := hpte.1
    unfold present
    omega
  · have hbit : m.pte i j / 4 % 2 = 1 := hpte.2
    unfold userBit
    omega

theorem clone_page_source (hrec : m'.phys d 1022 = entryFor (d * 4096) 3) {k l : Nat}
    (hk : k < 1024) (hl : l < 1024) (huser : UserPage m' d k l) : Deep m k ∧ UserPte m k l ∧ ∃ g, Free m g ∧
      freeBelow m.pmm g = framesBefore m k + 1 + pagesBelow m k l ∧ frameOf (entryAt m' d k l) = g := by
  obtain ⟨hpde, hbit, -, hpte⟩ := huser
  have hne : k ≠ 1022 := by
    rintro rfl
    rw [hrec] at hbit
    exact not_userBit_entryFor_kernel _ hbit
  have hentry := hcloned k hk hne
  unfold EntryCloned at hentry
  by_cases hdeep : Deep m k
  · rw [if_pos hdeep] at hentry
    obtain ⟨p, hp, hcopied⟩ := hentry
    have hword : entryAt m' d k l = m'.phys p l := by
      unfold entryAt
      rw [hp, frameOf_clonedPde]
    have hsource : UserPte m k l := by
      by_contra hnot
      rw [hword] at hpte
      exact hcopied.others l hl hnot hpte
    have hpos : 0 < l := by
      by_contra hzero
      obtain rfl : l = 0 := by omega
      exact hsafe.noFirst k hk hdeep hsource
    obtain ⟨g, hg, hrank, hcopy, -⟩ := hcopied.pages l hpos hl hsource
    refine ⟨hdeep, hsource, g, hg, hrank, ?_⟩
    unfold frameOf
    omega
  · rw [if_neg hdeep] at hentry
    rw [hentry] at hpde hbit
    exact absurd ⟨hpde, .inl hbit⟩ hdeep

end Isolation

theorem clone_isolated {dst : Nat} (hm : Layout m) (hsafe : CloneSafe m)
    (hclone : clonePageDirectory m (currentPageDir m) = some (dst, m')) (hne : dst ≠ 0) :
    Isolated m m' (dst / 4096) := by
  obtain ⟨dst', m'', hrun, -, hspec⟩ := clonePageDirectory_spec hm hsafe.toCopySafe
  rw [hclone] at hrun
  cases hrun
  obtain ⟨d, rfl, -, -, hcloning, hrec, hcloned⟩ := hspec hne
  rw [Nat.mul_div_cancel d (by decide)]
  have hframe : ∀ e g, frameOf (e % 4096 + g * 4096) = g := by
    intro e g
    unfold frameOf
    omega
  refine
    { page := ?_
      unshared := ?_
      apart := ?_
      contents := ?_
      shared := ?_ }
  · intro i j hi hj huser
    obtain ⟨-, -, hchild, g, -, -, hat, -⟩ := clone_page hsafe hcloned hm hi hj huser
    refine ⟨hchild, ?_⟩
    rw [hat, Nat.add_mul_mod_self_right, Nat.mod_mod]
    rfl
  · intro i j k l hi hj hk hl huser hother
    obtain ⟨-, -, -, g, hg, -, hat, -⟩ := clone_page hsafe hcloned hm hi hj huser
    have hdeep : Deep m k := ⟨hother.1, .inl hother.2.1⟩
    have hpte : UserPte m k l := ⟨hother.2.2.1, hother.2.2.2⟩
    rw [hat, hframe]
    intro heq
    exact (hsafe.pages k l hk hl hdeep hpte).1 (heq ▸ hg)
  · intro i j k l hi hj hk hl huser hchild heq
    obtain ⟨hdeep, hpte, -, g, hg, hrank, hat, -⟩ := clone_page hsafe hcloned hm hi hj huser
    obtain ⟨hkdeep, hkpte, g', hg', hrank', hframe'⟩ := clone_page_source hsafe hcloned hrec hk hl hchild
    rw [hat, hframe, hframe'] at heq
    subst heq
    exact page_rank_inj hj hl hdeep hkdeep hpte hkpte (hrank'.symm.trans hrank)
  · intro i j hi hj huser w hw
    obtain ⟨hdeep, hpte, -, g, -, -, hat, hpage⟩ := clone_page hsafe hcloned hm hi hj huser
    obtain ⟨htaken, hplain, -⟩ := hsafe.pages i j hi hj hdeep hpte
    rw [hat, hframe]
    exact ⟨hpage w hw, congrFun (hcloning.old _ htaken hplain) w⟩
  · intro i hi hkernel h32 h1022
    have hentry := hcloned i hi h1022
    have hshared : ¬ Deep m i := by
      rintro ⟨-, huser | heq⟩
      · exact hkernel huser
      · exact h32 heq
    unfold EntryCloned at hentry
    rwa [if_neg hshared] at hentry

/-- What happens to the current directory after `init_paging`. -/
inductive Call where
  | pmm (s : Pmm.State)
  | write (f w v : Nat)
  | mapPage (phys va flags : Nat)

def Call.run (m : Machine) : Call → Option Machine
  | .pmm s => some { m with pmm := s }
  | .write f w v => some (m.set f w v)
  | .mapPage phys va flags => (Paging.mapPage m phys va flags).map Prod.snd

/-- The page tables are neither freed nor written behind the code's back, and pages are mapped below
`0xC0000000`. -/
def Call.Allowed (m : Machine) : Call → Prop
  | .pmm s => Booted s ∧ ∀ f, Structural m f → Bitmap.test s.bitmap f = true
  | .write f _ _ => ¬ Structural m f
  | .mapPage _ va _ => va < 0xC0000000

/-- `map_page` finds the identity pages it uses: that of the directory, and when it has to make a
table that of the lowest free frame. -/
def Call.Safe (m : Machine) : Call → Prop
  | .mapPage _ va _ => Intact m m.dir ∧ (¬ present (m.pde (va / 4194304)) →
      ∀ f, Free m f → (∀ g, g < f → Bitmap.test m.pmm.bitmap g = true) → Intact m f)
  | _ => True

def SafeStep (m m' : Machine) : Prop := ∃ c : Call, c.Allowed m ∧ c.Safe m ∧ c.run m = some m'

theorem SafeStep.layout (hstep : SafeStep m m') (hm : Layout m) : Layout m' := by
  obtain ⟨c, hallowed, hsafe, hrun⟩ := hstep
  cases c with
  | pmm s =>
    cases hrun
    have hbits := hallowed.2
    exact
      { active := hm.active
        recursive := hm.recursive
        dirTaken := ⟨hm.dirTaken.1, hbits _ (.inl rfl)⟩
        booted := hallowed.1
        low := hm.low
        outside := hm.outside
        table := fun i hi hne hpresent => by
          obtain ⟨hlow, hhigh, -⟩ := hm.table i hi hne hpresent
          exact ⟨hlow, hhigh, hbits _ (Structural.table hi hpresent)⟩
        apart := hm.apart
        absent := hm.absent }
  | write f w v =>
    cases hrun
    have hne : f ≠ m.dir := fun heq => hallowed (.inl heq)
    exact hm.of_pde_eq rfl rfl hm.booted (fun _ hg => hg) (Machine.pde_setFrame hne)
  | mapPage phys va flags =>
    obtain ⟨⟨r, m''⟩, hmap, rfl⟩ := Option.map_eq_some_iff.mp hrun
    refine mapPage_layout _ _ hm hsafe.1 (table_of_user hallowed) (fun habsent f hf hclear hlowest => ?_) hmap
    exact hsafe.2 habsent f ⟨hf, hclear⟩ hlowest

theorem run_layout (hrun : Relation.ReflTransGen SafeStep m m') (hm : Layout m) : Layout m' := by
  induction hrun with
  | refl => exact hm
  | tail _ hstep ih => exact hstep.layout ih

/-- A machine whose memory manager is up and whose `kernel_directory` lies in the frames kept for
the kernel. -/
structure Boot (m : Machine) : Prop where
  pmm : ∃ fuel info, Pmm.pmmInit fuel info = some m.pmm
  off : m.active = false
  kernel : m.dir < kernelPages

theorem Boot.booted (hm : Boot m) : Booted m.pmm := by
  obtain ⟨fuel, info, hinit⟩ := hm.pmm
  obtain ⟨hcounted, hkernel⟩ := Pmm.pmmInit_counted hinit
  exact ⟨hcounted, hkernel⟩

theorem Boot.started {m₀ : Machine} (hboot : Boot m₀) (hinit : initPaging m₀ = some m) : Started m₀ m := by
  obtain ⟨-, hnone⟩ | ⟨m', hsome, hstarted⟩ := initPaging_cases hboot.off hboot.kernel hboot.booted
  · rw [hinit] at hnone
    cases hnone
  · rw [hinit] at hsome
    cases hsome
    exact hstarted

/-- Fork isolation, in every run that keeps the identity pages the code uses in place. -/
theorem clone_page_directory_isolates {m₀ m₁ m m' : Machine} {dst : Nat} (hboot : Boot m₀)
    (hinit : initPaging m₀ = some m₁) (hrun : Relation.ReflTransGen SafeStep m₁ m)
    (hsafe : CloneSafe m) (hclone : clonePageDirectory m (currentPageDir m) = some (dst, m'))
    (hne : dst ≠ 0) : Isolated m m' (dst / 4096) :=
  clone_isolated (run_layout hrun (hboot.started hinit).layout) hsafe hclone hne

def bootMachine : Machine :=
  { phys := fun _ _ => 0
    pmm := Pmm.bootState
    dir := 300
    active := false }

theorem bootMachine_pmm : bootMachine.pmm = Pmm.bootState := by
  simp only [bootMachine]

theorem bootMachine_boot : Boot bootMachine :=
  { pmm := ⟨0, _, by rw [bootMachine_pmm]; exact Pmm.pmmInit_no_map⟩
    off := rfl
    kernel := show 300 < kernelPages by decide }

theorem bootMachine_freeBelow {f : Nat} (hlow : 512 ≤ f)
    (hf : f ≤ 32768) : freeBelow bootMachine.pmm f = f - 512 := by
  have hkernel : kernelPages = 512 := by decide
  have htotal := Pmm.totalBlocks_eq
  have hbelow := Pmm.bootState_freeBelow (f - 512) (by omega)
  rw [show kernelPages + (f - 512) = f by omega] at hbelow
  rw [bootMachine_pmm, hbelow]

theorem bootMachine_started : ∃ m, initPaging bootMachine = some m ∧ Started bootMachine m := by
  obtain ⟨hless, -⟩ | hstarted :=
    initPaging_cases bootMachine_boot.off bootMachine_boot.kernel bootMachine_boot.booted
  · have hfree := bootMachine_freeBelow (f := 32768) (by decide) le_rfl
    have htotal := Pmm.totalBlocks_eq
    rw [htotal] at hless
    omega
  · exact hstarted

def heapMachine (m : Machine) (j : Nat) : Machine :=
  mapped { m with pmm := m.pmm.markUsed 641 } 4 j (entryFor (641 * 4096) 7) 7

section Heap

variable {m : Machine} {j : Nat} (hs : Started bootMachine m) (hj : j < 1024)

include hs

variable {f i : Nat}

theorem heap_clear_iff (hf : f < 32768) : Bitmap.test m.pmm.bitmap f = false ↔ 641 ≤ f := by
  have hkernel : kernelPages = 512 := by decide
  rw [hs.taken.clear_iff hf]
  by_cases hlow : 512 ≤ f
  · have hfree : Bitmap.test bootMachine.pmm.bitmap f = false := by
      exact Pmm.bootState_free hlow hf
    rw [bootMachine_freeBelow hlow (by omega)]
    simp only [hfree, true_and]
    omega
  · have hset : Bitmap.test bootMachine.pmm.bitmap f = true := by
      exact Pmm.bootState_booted.kernel f (by omega)
    simp only [hset, Bool.true_eq_false, false_and, false_iff]
    omega

theorem heap_taken_layout : Layout { m with pmm := m.pmm.markUsed 641 } :=
  hs.layout.of_pde_eq rfl rfl
    (hs.layout.booted.markUsed (by decide) ((heap_clear_iff hs (by decide)).mpr (by decide)))
    (fun f hf => by simp only [Pmm.State.markUsed, Bitmap.test_set, hf, Bool.or_true])
    (fun _ => rfl)

theorem heap_free_iff : Free (heapMachine m j) f ↔ 642 ≤ f ∧ f < 32768 := by
  have hpmm : Bitmap.test (heapMachine m j).pmm.bitmap f =
      (decide (f = 641) || Bitmap.test m.pmm.bitmap f) := Bitmap.test_set m.pmm.bitmap 641 f
  have htotal := Pmm.totalBlocks_eq
  unfold Free
  rw [hpmm, htotal]
  constructor
  · rintro ⟨hf, hclear⟩
    rw [Bool.or_eq_false_iff, decide_eq_false_iff_not, heap_clear_iff hs hf] at hclear
    omega
  · rintro ⟨hlow, hf⟩
    refine ⟨hf, ?_⟩
    rw [Bool.or_eq_false_iff, decide_eq_false_iff_not, heap_clear_iff hs hf]
    omega

theorem heap_freeBelow (n : Nat) (hn : 642 + n ≤ 32768) : n ≤ freeBelow (heapMachine m j).pmm (642 + n) := by
  induction n with
  | zero => exact Nat.zero_le _
  | succ n ih =>
    have hfree := ((heap_free_iff (j := j) hs (f := 642 + n)).mpr (by omega)).2
    rw [← Nat.add_assoc, Pmm.freeBelow_succ, if_pos hfree]
    omega

theorem heap_pde (k : Nat) : (heapMachine m j).pde k = Function.update m.pde 4 (grantUser 7 (m.pde 4)) k :=
  mapped_pde 7 (heap_taken_layout hs) (by decide) (hs.layout.low 4 (by decide)) _ _ k

theorem heap_pte {k : Nat} (hk : k < 1024) (hne : k ≠ 1022) (hpresent : present (m.pde k)) (l : Nat) :
    (heapMachine m j).pte k l = if k = 4 ∧ l = j then entryFor (641 * 4096) 7 else m.pte k l :=
  mapped_pte 7 (heap_taken_layout hs) (by decide) (hs.layout.low 4 (by decide)) _ _ hk hne hpresent l

theorem heap_layout : Layout (heapMachine m j) :=
  mapped_layout 7 (heap_taken_layout hs) (by decide) (hs.layout.low 4 (by decide)) _ _

theorem heap_user {l : Nat} (hi : i < 1024) (hl : l < 1024) (hdeep : Deep (heapMachine m j) i)
    (huser : UserPte (heapMachine m j) i l) : i = 4 ∧ l = j := by
  have hne : i ≠ 1022 := fun heq => (heap_layout hs).not_deep_recursive (heq ▸ hdeep)
  have hpresent : present (m.pde i) :=
    (mapped_present 7 (heap_taken_layout hs) (by decide) (hs.layout.low 4 (by decide)) j
      (entryFor (641 * 4096) 7) i).1.mp hdeep.1
  by_contra hcell
  have hbit := huser.2
  rw [heap_pte hs hi hne hpresent, if_neg hcell] at hbit
  exact hs.kernelPte i hi hpresent l hl hbit

theorem heap_deep (hi : i < 1024) (hdeep : Deep (heapMachine m j) i) : i = 4 ∨ i = 32 := by
  obtain ⟨-, huser | heq⟩ := hdeep
  · left
    by_contra hne
    rw [heap_pde hs, Function.update_of_ne hne] at huser
    exact hs.kernelPde i hi huser
  · exact .inr heq

theorem heap_pagesBelow (hi : i < 1024) (hdeep : Deep (heapMachine m j) i) :
    pagesBelow (heapMachine m j) i 1024 ≤ if i = 4 then 1 else 0 := by
  unfold pagesBelow
  rw [Nat.count_eq_card_filter_range]
  split
  · refine Finset.card_le_one.mpr fun a ha b hb => ?_
    rw [Finset.mem_filter, Finset.mem_range] at ha hb
    rw [(heap_user hs hi ha.1 hdeep ha.2).2, (heap_user hs hi hb.1 hdeep hb.2).2]
  · rename_i hne
    rw [Nat.le_zero, Finset.card_eq_zero, Finset.filter_eq_empty_iff]
    intro l hl huser
    exact hne (heap_user hs hi (Finset.mem_range.mp hl) hdeep huser).1

theorem heap_framesBefore : framesBefore (heapMachine m j) 1024 ≤ 4 := by
  have hone : ∀ n a c : Nat, ∑ k ∈ Finset.range n, (if k = a then c else 0) ≤ c := by
    intro n a c
    rw [Finset.sum_ite_eq' (Finset.range n) a (fun _ => c)]
    split
    · exact le_rfl
    · exact Nat.zero_le c
  have hle : ∑ k ∈ Finset.range 1024, (if Deep (heapMachine m j) k then
        1 + pagesBelow (heapMachine m j) k 1024 else 0) ≤
      ∑ k ∈ Finset.range 1024, ((if k = 4 then 2 else 0) + if k = 32 then 1 else 0) := by
    refine Finset.sum_le_sum fun k hk => ?_
    rw [Finset.mem_range] at hk
    split
    · rename_i hdeep
      have hpages := heap_pagesBelow hs hk hdeep
      obtain rfl | rfl := heap_deep hs hk hdeep
      · rw [if_pos rfl] at hpages ⊢
        omega
      · rw [if_neg (by decide)] at hpages ⊢
        rw [if_pos rfl]
        omega
    · exact Nat.zero_le _
  rw [Finset.sum_add_distrib] at hle
  have hfour := hone 1024 4 2
  have hthirtyTwo := hone 1024 32 1
  unfold framesBefore
  omega

include hj

theorem heap_copySafe : CopySafe (heapMachine m j) := by
  have htotal := Pmm.totalBlocks_eq
  have htaken := heap_taken_layout hs
  have hfour := hs.layout.low 4 (by decide)
  have hdir : m.dir = 300 := hs.dir
  have hmapped : ∀ f, Intact m f → f / 1024 ≠ 1022 → f ≠ 4096 + j → Intact (heapMachine m j) f := by
    intro f hintact hne hother
    exact mapped_intact _ htaken (by decide) hfour _ _
      ⟨hintact.range, hintact.table, hintact.page, hintact.frame⟩ hne (by omega)
  refine
    { dir := ?_
      pages := ?_
      frames := ?_ }
  · have hintact := hs.intact 300 (by decide) (.inl (by decide))
    rw [show (heapMachine m j).dir = 300 from hdir]
    exact hmapped 300 hintact (by decide) (by omega)
  · intro i l hi hl hdeep huser
    obtain ⟨rfl, rfl⟩ := heap_user hs hi hl hdeep huser
    have hpte : (heapMachine m l).pte 4 l = entryFor (641 * 4096) 7 := by
      rw [heap_pte hs hi (by decide) hfour, if_pos ⟨rfl, rfl⟩]
    have hclear := (heap_clear_iff hs (f := 641) (by decide)).mpr le_rfl
    rw [hpte, frameOf_entryFor_frame]
    refine ⟨?_, ?_, hmapped 641 (hs.intact 641 (by decide) (.inr hclear)) (by decide) (by omega)⟩
    · rw [heap_free_iff hs]
      omega
    · unfold heapMachine
      rw [mapped_structural _ htaken (by decide) hfour]
      exact hs.layout.not_structural_of_clear hclear
  · intro f hfree hrank
    obtain ⟨hlow, hf⟩ := (heap_free_iff hs).mp hfree
    have hsmall : f < 646 := by
      by_contra hlarge
      have hfour := heap_freeBelow (j := j) hs 4 (by decide)
      have hmono : freeBelow (heapMachine m j).pmm (642 + 4) ≤ freeBelow (heapMachine m j).pmm f :=
        Nat.count_monotone _ (by omega)
      have := heap_framesBefore (j := j) hs
      omega
    have hclear := (heap_clear_iff hs hf).mpr (by omega)
    exact hmapped f (hs.intact f (by omega) (.inr hclear)) (by omega) (by omega)

theorem heap_reached : Relation.ReflTransGen SafeStep m (heapMachine m j) := by
  have htaken := heap_taken_layout hs
  have hdir : m.dir = 300 := hs.dir
  have hintact : Intact m m.dir := by
    rw [hdir]
    exact hs.intact 300 (by decide) (.inl (by decide))
  have hva : (0x1000000 + j * 4096) / 4194304 = 4 := by omega
  have hpage : (0x1000000 + j * 4096) / 4096 % 1024 = j := by omega
  have hpresent : present (Machine.pde { m with pmm := m.pmm.markUsed 641 }
      ((0x1000000 + j * 4096) / 4194304)) := by
    rw [hva]
    exact hs.layout.low 4 (by decide)
  have hintact' : Intact { m with pmm := m.pmm.markUsed 641 } m.dir :=
    ⟨hintact.range, hintact.table, hintact.page, hintact.frame⟩
  have hmap := mapPage_of_present (641 * 4096) 7 htaken hintact' (by omega) hpresent
  rw [hva, hpage] at hmap
  refine (Relation.ReflTransGen.single (b := { m with pmm := m.pmm.markUsed 641 }) ?_).tail ?_
  · refine ⟨.pmm (m.pmm.markUsed 641), ⟨htaken.booted, fun f hf => ?_⟩, trivial, rfl⟩
    by_contra hfree
    rw [Bool.not_eq_true] at hfree
    exact htaken.not_structural_of_clear hfree hf
  · refine ⟨.mapPage (641 * 4096) (0x1000000 + j * 4096) 7, ?_, ⟨hintact', ?_⟩, ?_⟩
    · show 0x1000000 + j * 4096 < 0xC0000000
      omega
    · exact fun habsent => absurd hpresent habsent
    · simp only [Call.run, hmap]
      rfl

omit hj in
theorem heap_userPage : UserPage (heapMachine m j) (heapMachine m j).dir 4 j := by
  have hfour := hs.layout.low 4 (by decide)
  have hpte : entryAt (heapMachine m j) (heapMachine m j).dir 4 j = entryFor (641 * 4096) 7 := by
    refine (heap_pte hs (k := 4) (by decide) (by decide) hfour j).trans ?_
    rw [if_pos ⟨rfl, rfl⟩]
  have hpde : (heapMachine m j).phys (heapMachine m j).dir 4 = grantUser 7 (m.pde 4) :=
    (heap_pde hs 4).trans (Function.update_self _ _ _)
  refine ⟨?_, ?_, ?_, ?_⟩
  · rw [hpde, present_grantUser]
    exact hfour
  · rw [hpde]
    unfold grantUser userBit at *
    split <;> omega
  · rw [hpte, present_entryFor]
  · rw [hpte, userBit_entryFor]
    decide

theorem heap_clone : ∃ dst m', clonePageDirectory (heapMachine m j)
      (currentPageDir (heapMachine m j)) = some (dst, m') ∧ dst ≠ 0 := by
  obtain ⟨dst, m', hclone, hfail, -⟩ := clonePageDirectory_spec (heap_layout hs) (heap_copySafe hs hj)
  refine ⟨dst, m', hclone, fun hzero => ?_⟩
  have hless := hfail hzero
  have htotal := Pmm.totalBlocks_eq
  have hroom := heap_freeBelow (j := j) hs 32126 (by decide)
  have hneed := heap_framesBefore (j := j) hs
  rw [htotal] at hless
  simp only [Nat.reduceAdd] at hroom
  omega

end Heap

/-- A process whose only page is the second page of the heap, forked. -/
theorem clone_page_directory_isolates_heap : ∃ m₁ m' dst, initPaging bootMachine = some m₁ ∧
      UserPage (heapMachine m₁ 1) (heapMachine m₁ 1).dir 4 1 ∧
      clonePageDirectory (heapMachine m₁ 1) (currentPageDir (heapMachine m₁ 1)) = some (dst, m') ∧
      Isolated (heapMachine m₁ 1) m' (dst / 4096) := by
  obtain ⟨m₁, hinit, hs⟩ := bootMachine_started
  obtain ⟨dst, m', hclone, hne⟩ := heap_clone (j := 1) hs (by decide)
  have hsafe : CloneSafe (heapMachine m₁ 1) :=
    { toCopySafe := heap_copySafe hs (by decide)
      noFirst := fun i hi hdeep huser => by
        have hpage := heap_user hs hi (by decide) hdeep huser
        omega }
  exact ⟨m₁, m', dst, hinit, heap_userPage hs, hclone,
    clone_page_directory_isolates bootMachine_boot hinit (heap_reached hs (by decide)) hsafe hclone
      hne⟩

/-- The first page of the heap is entry 0 of its table, where the clone plants the table itself: the
child has no such page. -/
theorem clone_page_directory_loses_first_page :
    ∃ m₁ m m' dst, initPaging bootMachine = some m₁ ∧ Relation.ReflTransGen SafeStep m₁ m ∧
      clonePageDirectory m (currentPageDir m) = some (dst, m') ∧ dst ≠ 0 ∧
      UserPage m m.dir 4 0 ∧ ¬ UserPage m' (dst / 4096) 4 0 ∧ ¬ Isolated m m' (dst / 4096) := by
  obtain ⟨m₁, hinit, hs⟩ := bootMachine_started
  obtain ⟨dst, m', hclone, hne⟩ := heap_clone (j := 0) hs (by decide)
  have huser := heap_userPage (j := 0) hs
  obtain ⟨dst', m'', hrun, -, hspec⟩ :=
    clonePageDirectory_spec (heap_layout hs) (heap_copySafe (j := 0) hs (by decide))
  rw [hclone] at hrun
  cases hrun
  obtain ⟨d, rfl, -, -, -, -, hcloned⟩ := hspec hne
  have hentry := hcloned 4 (by decide) (by decide)
  unfold EntryCloned at hentry
  rw [if_pos ⟨huser.1, .inl huser.2.1⟩] at hentry
  obtain ⟨p, hpde, hcopied⟩ := hentry
  have hlost : ¬ UserPage m' (d * 4096 / 4096) 4 0 := by
    rintro ⟨-, -, -, hbit⟩
    unfold entryAt at hbit
    rw [Nat.mul_div_cancel d (by decide), hpde, frameOf_clonedPde, hcopied.self] at hbit
    exact not_userBit_entryFor_kernel _ hbit
  exact ⟨m₁, heapMachine m₁ 0, m', d * 4096, hinit, heap_reached hs (by decide), hclone, hne, huser,
    hlost, fun hisolated => hlost (hisolated.page 4 0 (by decide) (by decide) huser).1⟩

end JexOs.Paging
