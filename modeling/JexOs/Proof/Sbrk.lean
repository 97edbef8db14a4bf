import JexOs.Proof.PagingRun
import JexOs.Sbrk

/-!
# No stale user mapping

A failing `sbrk` or `map_user_stack` gives its frames back but leaves them mapped. A run is free of
stale mappings exactly when no call fails after its first page.
-/

namespace JexOs.Sbrk

open Paging List Option
open Pmm (Booted kernelPages totalBlocks)

def NoStale (m : Machine) : Prop :=
  ∀ i j, i < 1024 → j < 1024 → present (m.pde i) → UserPte m i j → ¬ Free m (frameOf (m.pte i j))

structure Good (m : Machine) : Prop where
  layout : Layout m
  dirLow : m.dir < kernelPages
  dir : Intact m m.dir
  clean : NoStale m

def MapsUser (m : Machine) (page f : Nat) : Prop :=
  m.pte (page / 1024) (page % 1024) = entryFor (f * 4096) 7

variable {f n : Nat} {m : Machine} {frames : List Nat} {s : State}

theorem not_free_of_set (hset : Bitmap.test m.pmm.bitmap f = true) : ¬ Free m f := by
  rintro ⟨-, hclear⟩
  rw [hset] at hclear
  cases hclear

theorem Good.push (hm : Good m) (va : Nat) (hlow : 0x700000 ≤ va) (hva : va < 0x20000000) :
    (m.pmm.usedBlocks = totalBlocks ∧ allocBlock m = (0, m)) ∨
      ∃ f m', f < totalBlocks ∧ m.pmm.usedBlocks < totalBlocks ∧ f * 4096 ≠ 0 ∧
        allocBlock m = (f * 4096, { m with pmm := m.pmm.markUsed f }) ∧
        mapPage { m with pmm := m.pmm.markUsed f } (f * 4096) va 7 = some (0, m') ∧ Good m' ∧
        m'.pmm = m.pmm.markUsed f ∧ MapsUser m' (va / 4096) f ∧
        ∀ page g, page < 131072 → page ≠ va / 4096 → MapsUser m page g → MapsUser m' page g := by
  have hkernel : kernelPages = 512 := by decide
  have hdirLow := hm.dirLow
  obtain ⟨-, hfull, hnone⟩ | ⟨f, hf, hclear, -, hroom, halloc⟩ := Pmm.pmmAllocBlock_cases hm.layout.booted
  · refine .inl ⟨hfull, ?_⟩
    unfold allocBlock
    rw [hnone]
  · have hbase := hm.layout.booted.kernelPages_le hclear
    have htaken : Layout { m with pmm := m.pmm.markUsed f } :=
      hm.layout.of_pde_eq rfl rfl (hm.layout.booted.markUsed hf hclear)
        (fun g hg => by simp only [Pmm.State.markUsed, Bitmap.test_set, hg, Bool.or_true])
        (fun _ => rfl)
    have hdir : Intact { m with pmm := m.pmm.markUsed f } m.dir :=
      ⟨hm.dir.range, hm.dir.table, hm.dir.page, hm.dir.frame⟩
    have hpresent : present (m.pde (va / 4194304)) := hm.layout.low _ (by omega)
    have htable : va / 4194304 < 1024 ∧ va / 4194304 ≠ 1022 := by omega
    have hmap := mapPage_of_present (f * 4096) 7 htaken hdir htable hpresent
    have hpte := fun {k} (hk : k < 1024) (hne : k ≠ 1022) (hkp : present (m.pde k)) =>
      mapped_pte 7 htaken htable hpresent
        (va / 4096 % 1024) (entryFor (f * 4096) 7) hk hne hkp
    have hlayout := mapped_layout 7 htaken htable hpresent (va / 4096 % 1024) (entryFor (f * 4096) 7)
    have hbit : ∀ g, Bitmap.test (m.pmm.markUsed f).bitmap g =
        (decide (g = f) || Bitmap.test m.pmm.bitmap g) := Bitmap.test_set m.pmm.bitmap f
    have hdiv : va / 4096 / 1024 = va / 4194304 := by omega
    refine .inr ⟨f, _, hf, hroom, by omega, ?_, hmap,
      { layout := hlayout
        dirLow := hdirLow
        dir := mapped_intact (f := m.dir) 7 htaken htable hpresent _ _ hdir (by omega) (by omega)
        clean := ?_ }, rfl, ?_, ?_⟩
    · unfold allocBlock
      rw [halloc]
      rfl
    · intro k l hk hl hkp huser hfree
      by_cases hrec : k = 1022
      · -- seen through the recursive entry, a table is a page, and tables are taken
        subst hrec
        unfold UserPte at huser
        rw [hlayout.pte_recursive] at hfree huser
        exact hlayout.not_structural_of_clear hfree.2 (Structural.table hl huser.1)
      · have hkp' := (mapped_present 7 htaken htable hpresent (va / 4096 % 1024)
          (entryFor (f * 4096) 7) k).1.mp hkp
        unfold UserPte at huser
        rw [hpte hk hrec hkp'] at huser hfree
        by_cases hcell : k = va / 4194304 ∧ l = va / 4096 % 1024
        · rw [if_pos hcell, frameOf_entryFor_frame] at hfree
          refine not_free_of_set ?_ hfree
          exact (hbit f).trans (by simp)
        · rw [if_neg hcell] at huser hfree
          refine hm.clean k l hk hl hkp' huser ⟨hfree.1, ?_⟩
          have hclear' := (hbit (frameOf (m.pte k l))).symm.trans hfree.2
          rw [Bool.or_eq_false_iff] at hclear'
          exact hclear'.2
    · unfold MapsUser
      rw [hdiv, hpte (by omega) (by omega) hpresent, if_pos ⟨rfl, rfl⟩]
    · intro page g hpage hne hmaps
      have hcell : ¬ (page / 1024 = va / 4194304 ∧ page % 1024 = va / 4096 % 1024) := by
        rintro ⟨h₁, h₂⟩
        omega
      unfold MapsUser at hmaps ⊢
      rw [hpte (by omega) (by omega) (hm.layout.low _ (by omega)), if_neg hcell]
      exact hmaps

theorem test_pmmFreeBlock_le {s : Pmm.State} {p : Nat} (hclear : Bitmap.test s.bitmap f = false) :
    Bitmap.test (Pmm.pmmFreeBlock s p).bitmap f = false := by
  unfold Pmm.pmmFreeBlock
  split
  · exact hclear
  · rw [Pmm.test_release, hclear, Bool.and_false]

theorem freeFrames_free (hf : f < totalBlocks) (hmem : f * 4096 ∈ frames) : Free (freeFrames frames m) f := by
  have hstays : ∀ (frames : List Nat) (s : Pmm.State), Bitmap.test s.bitmap f = false →
      Bitmap.test (frames.foldl Pmm.pmmFreeBlock s).bitmap f = false := by
    intro frames
    induction frames with
    | nil => exact fun s hclear => hclear
    | cons p frames ih => exact fun s hclear => ih _ (test_pmmFreeBlock_le hclear)
  have hcleared : ∀ (frames : List Nat) (s : Pmm.State), f * 4096 ∈ frames →
      Bitmap.test (frames.foldl Pmm.pmmFreeBlock s).bitmap f = false := by
    intro frames
    induction frames with
    | nil => exact fun s h => absurd h not_mem_nil
    | cons p frames ih =>
      intro s h
      obtain rfl | htail := mem_cons.mp h
      · refine hstays frames _ ?_
        have hframe : f * 4096 / Pmm.blockSize = f := Nat.mul_div_cancel f (by decide)
        unfold Pmm.pmmFreeBlock
        rw [hframe, if_neg (not_le.mpr hf), Pmm.test_release]
        simp
      · exact ih _ htail
  exact ⟨hf, hcleared frames m.pmm hmem⟩

theorem not_noStale_of_freed {page : Nat} (hm : Layout m)
    (hpage : page < 131072) (hmaps : MapsUser m page f) (hf : f < totalBlocks)
    (hmem : f * 4096 ∈ frames) : ¬ NoStale (freeFrames frames m) := by
  intro hclean
  have hpte : (freeFrames frames m).pte (page / 1024) (page % 1024) = entryFor (f * 4096) 7 := hmaps
  refine hclean (page / 1024) (page % 1024) (by omega) (Nat.mod_lt _ (by decide))
    (hm.low _ (by omega)) ⟨?_, ?_⟩ ?_
  · rw [hpte, present_entryFor]
  · rw [hpte, userBit_entryFor]
    decide
  · rw [hpte, frameOf_entryFor_frame]
    exact freeFrames_free hf hmem

def pagesUpTo (newBreak heapEnd : Nat) : Nat := (newBreak - heapEnd + 4095) / 4096

def State.freeCount (s : State) : Nat := totalBlocks - s.machine.pmm.usedBlocks

/-- The break lies in the mapped part of the heap, whose pages all took a frame. -/
structure HeapInv (s : State) : Prop where
  good : Good s.machine
  low : heapStart ≤ s.programBreak
  high : s.programBreak ≤ s.heapEnd
  pages : ∃ h, s.heapEnd = heapStart + 4096 * h ∧ h ≤ s.machine.pmm.usedBlocks

theorem heapEnd_lt (hm : Good s.machine)
    (hpages : ∃ h, s.heapEnd = heapStart + 4096 * h ∧ h ≤ s.machine.pmm.usedBlocks) :
    0x1000000 ≤ s.heapEnd ∧ s.heapEnd ≤ 0x9000000 := by
  have hcount := Bitmap.count_le s.machine.pmm.bitmap totalBlocks
  have hcounted : s.machine.pmm.usedBlocks = Bitmap.count s.machine.pmm.bitmap totalBlocks :=
    hm.layout.booted.counted
  have htotal := Pmm.totalBlocks_eq
  have hstart : heapStart = 0x1000000 := rfl
  omega

section Grow

variable {newBreak : Nat}

theorem growHeap_push {s : State} (room : Nat) (frames : List Nat) (hm : Good s.machine)
    (hpages : ∃ h, s.heapEnd = heapStart + 4096 * h ∧ h ≤ s.machine.pmm.usedBlocks)
    (hmore : newBreak > s.heapEnd) (hroom : s.machine.pmm.usedBlocks < totalBlocks) :
    ∃ f m', f < totalBlocks ∧ Good m' ∧ m'.pmm.usedBlocks = s.machine.pmm.usedBlocks + 1 ∧
      MapsUser m' (s.heapEnd / 4096) f ∧
      (∀ page g, page < 131072 → page ≠ s.heapEnd / 4096 → MapsUser s.machine page g → MapsUser m' page g) ∧
      growHeap newBreak (room + 1) frames s = growHeap newBreak room (frames ++ [f * 4096])
          { s with
            machine := m'
            heapEnd := s.heapEnd + 4096 } := by
  obtain ⟨hlow, hhigh⟩ := heapEnd_lt hm hpages
  obtain ⟨hfull, -⟩ | ⟨f, m', hf, -, hne, halloc, hmap, hgood, hpmm, hmaps, hkeep⟩ :=
    hm.push s.heapEnd (by omega) (by omega)
  · omega
  · refine ⟨f, m', hf, hgood, by rw [hpmm]; rfl, hmaps, hkeep, ?_⟩
    have hend : (s.heapEnd + 4096) % 2 ^ 32 = s.heapEnd + 4096 := Nat.mod_eq_of_lt (by omega)
    rw [growHeap, if_pos hmore, halloc]
    simp only [if_neg hne, hmap, bind_eq_bind, bind_some, if_neg (show ¬ (0 : Int) < 0 by decide), hend]

theorem growHeap_done {s : State} {room : Nat} {frames : List Nat} (hless : ¬ newBreak > s.heapEnd) :
    growHeap newBreak room frames s = some (true, s) := by
  cases room <;> rw [growHeap, if_neg hless]

theorem growHeap_fits {n : Nat} (room : Nat) (frames : List Nat) {s : State} (hm : Good s.machine)
    (hpages : ∃ h, s.heapEnd = heapStart + 4096 * h ∧ h ≤ s.machine.pmm.usedBlocks)
    (hn : pagesUpTo newBreak s.heapEnd = n) (hroom : n ≤ room) (hfree : n ≤ s.freeCount) :
    ∃ s', growHeap newBreak room frames s = some (true, s') ∧ Good s'.machine ∧
      newBreak ≤ s'.heapEnd ∧ s'.heapEnd = s.heapEnd + 4096 * n ∧
      ∃ h, s'.heapEnd = heapStart + 4096 * h ∧ h ≤ s'.machine.pmm.usedBlocks := by
  unfold pagesUpTo at hn
  induction n generalizing room frames s with
  | zero =>
    exact ⟨s, growHeap_done (by omega), hm, by omega, rfl, hpages⟩
  | succ n ih =>
    obtain ⟨room, rfl⟩ : ∃ k, room = k + 1 := ⟨room - 1, by omega⟩
    unfold State.freeCount at hfree
    obtain ⟨f, m', -, hgood, hused, -, -, hstep⟩ := growHeap_push room frames hm hpages
      (show newBreak > s.heapEnd by omega) (by omega)
    obtain ⟨h, hend, hle⟩ := hpages
    obtain ⟨s', hrun, hgood', hbreak, hend', hpages'⟩ := ih room
      (frames ++ [f * 4096])
      (s := { s with
        machine := m'
        heapEnd := s.heapEnd + 4096 }) hgood ⟨h + 1, by simp only; omega, by simp only; omega⟩
      (by simp only; omega) (by omega) (by unfold State.freeCount; simp only; omega)
    simp only at hend'
    exact ⟨s', hstep.trans hrun, hgood', hbreak, by omega, hpages'⟩

theorem growHeap_overflow {page f : Nat} (newBreak room : Nat) (frames : List Nat) {s : State}
    (hm : Good s.machine)
    (hpages : ∃ h, s.heapEnd = heapStart + 4096 * h ∧ h ≤ s.machine.pmm.usedBlocks)
    (hless : room < pagesUpTo newBreak s.heapEnd ∨ s.freeCount < pagesUpTo newBreak s.heapEnd)
    (hpage : page < s.heapEnd / 4096) (hmaps : MapsUser s.machine page f) (hf : f < totalBlocks)
    (hmem : f * 4096 ∈ frames) :
    ∃ s', growHeap newBreak room frames s = some (false, s') ∧ ¬ NoStale s'.machine := by
  induction room generalizing frames s with
  | zero =>
    obtain ⟨hlow, hhigh⟩ := heapEnd_lt hm hpages
    have hmore : newBreak > s.heapEnd := by
      unfold pagesUpTo at hless
      omega
    rw [growHeap, if_pos hmore]
    refine ⟨_, rfl, ?_⟩
    have hlayout : Layout (allocBlock s.machine).2 := by
      obtain ⟨-, -, hnone⟩ | ⟨g, hg, hclear, -, -, halloc⟩ := Pmm.pmmAllocBlock_cases hm.layout.booted
      · unfold allocBlock
        rw [hnone]
        exact hm.layout
      · unfold allocBlock
        rw [halloc]
        exact hm.layout.of_pde_eq rfl rfl (hm.layout.booted.markUsed hg hclear)
          (fun k hk => by simp only [Pmm.State.markUsed, Bitmap.test_set, hk, Bool.or_true])
          (fun _ => rfl)
    exact not_noStale_of_freed hlayout (by omega) hmaps hf hmem
  | succ room ih =>
    obtain ⟨hlow, hhigh⟩ := heapEnd_lt hm hpages
    unfold pagesUpTo State.freeCount at hless
    have hmore : newBreak > s.heapEnd := by omega
    by_cases hfull : s.machine.pmm.usedBlocks < totalBlocks
    · obtain ⟨g, m', -, hgood, hused, -, hkeep, hstep⟩ := growHeap_push room frames hm hpages hmore hfull
      obtain ⟨h, hend, hle⟩ := hpages
      rw [hstep]
      refine ih _ hgood ⟨h + 1, by simp only; omega, by simp only; omega⟩ ?_ (by simp only; omega)
        (hkeep page f (by omega) (by omega) hmaps) (mem_append_left _ hmem)
      unfold pagesUpTo State.freeCount
      simp only
      omega
    · obtain ⟨-, hnone⟩ | ⟨_, _, _, hroom, _⟩ := hm.push s.heapEnd (by omega) (by omega)
      · rw [growHeap, if_pos hmore, hnone]
        exact ⟨_, rfl, not_noStale_of_freed hm.layout (by omega) hmaps hf hmem⟩
      · exact absurd hroom hfull

end Grow

theorem start_inv (hs : Good s.machine) (hheap : s.programBreak = 0 ∨ HeapInv s) : HeapInv (start s) := by
  unfold start
  by_cases hnull : s.programBreak = 0
  · rw [if_pos hnull]
    exact
      { good := hs
        low := le_rfl
        high := le_rfl
        pages := ⟨0, rfl, Nat.zero_le _⟩ }
  · rw [if_neg hnull]
    exact hheap.resolve_left hnull

def newPages (s : State) (increment : Int) : Nat :=
  if increment.toNat > 0x1F000000 then 0
  else pagesUpTo (s.programBreak + increment.toNat) s.heapEnd

def Fits (s : State) (increment : Int) : Prop :=
  newPages s increment = 0 ∨ s.freeCount = 0 ∨
    (newPages s increment ≤ sbrkMaxPages ∧ newPages s increment ≤ s.freeCount)

theorem rollback_nil (hend : s.heapEnd < 2 ^ 32) : rollback [] s = s := by
  have hsame : (s.heapEnd + 2 ^ 32 - 0 * 4096) % 2 ^ 32 = s.heapEnd := by omega
  unfold rollback freeFrames
  rw [length_nil, hsame]
  rfl

section SbrkCall

variable {s : State} {increment : Int} (hs : HeapInv s)

include hs

theorem HeapInv.bounds : 0x1000000 ≤ s.programBreak ∧ s.programBreak ≤ s.heapEnd ∧ s.heapEnd ≤ 0x9000000 := by
  obtain ⟨hlow, hhigh⟩ := heapEnd_lt hs.good hs.pages
  have hbreak := hs.low
  have hstart : heapStart = 0x1000000 := rfl
  exact ⟨by omega, hs.high, hhigh⟩

variable (hnull : s.programBreak ≠ 0)

include hnull

theorem sbrk_grow_eq (hpos : 0 < increment) (hsmall : ¬ increment.toNat > 0x1F000000) :
    sbrk s increment = (growHeap (s.programBreak + increment.toNat) sbrkMaxPages [] s).map fun (done, s') =>
        if done then
          (s.programBreak, { s' with programBreak := s.programBreak + increment.toNat })
        else (failed, s') := by
  obtain ⟨hlow, hhigh, hend⟩ := hs.bounds
  have hwrap : (s.programBreak + increment.toNat) % 2 ^ 32 = s.programBreak + increment.toNat :=
    Nat.mod_eq_of_lt (by omega)
  have hstart : start s = s := if_neg hnull
  have haccept : ¬ (increment > 0 ∧ (increment.toNat > 0x1F000000 ∨
      s.programBreak + increment.toNat < s.programBreak)) := by
    rintro ⟨-, hbig | hless⟩ <;> omega
  have hnotNeg : ¬ (increment < 0 ∧ (-increment).toNat > (s.programBreak + 2 ^ 32 - heapStart) %
      2 ^ 32) := by
    rintro ⟨hneg, -⟩
    omega
  unfold sbrk
  simp only [hstart, hwrap, if_neg (show ¬ increment = 0 by omega), if_neg haccept,
    if_neg hnotNeg, if_pos hpos]
  cases growHeap (s.programBreak + increment.toNat) sbrkMaxPages [] s with
  | none => rfl
  | some r =>
    obtain ⟨done, s'⟩ := r
    cases done <;> rfl

theorem sbrk_still (hstill : ¬ 0 < increment ∨ increment.toNat > 0x1F000000) :
    ∃ r s', sbrk s increment = some (r, s') ∧ HeapInv s' := by
  obtain ⟨hlow, hhigh, hend⟩ := hs.bounds
  have hstart : start s = s := if_neg hnull
  have hbase : heapStart = 0x1000000 := rfl
  unfold sbrk
  simp only [hstart]
  split
  · exact ⟨_, s, rfl, hs⟩
  · split
    · exact ⟨_, s, rfl, hs⟩
    · rename_i hzero haccept
      split
      · exact ⟨_, s, rfl, hs⟩
      · rename_i hfits
        have hneg : increment < 0 := by
          by_contra hnonneg
          exact haccept ⟨by omega, .inl (hstill.resolve_left (by omega))⟩
        rw [if_neg (by omega)]
        exact ⟨_, _, rfl,
          { good := hs.good
            low := le_max_right _ _
            high := by
              simp only
              omega
            pages := hs.pages }⟩

theorem sbrk_fits (hfits : Fits s increment) : ∃ r s', sbrk s increment = some (r, s') ∧ HeapInv s' := by
  by_cases hgrow : 0 < increment ∧ ¬ increment.toNat > 0x1F000000
  · obtain ⟨hlow, hhigh, hend⟩ := hs.bounds
    rw [sbrk_grow_eq hs hnull hgrow.1 hgrow.2]
    unfold Fits newPages at hfits
    rw [if_neg hgrow.2] at hfits
    by_cases hroom : pagesUpTo (s.programBreak + increment.toNat) s.heapEnd ≤ sbrkMaxPages ∧
        pagesUpTo (s.programBreak + increment.toNat) s.heapEnd ≤ s.freeCount
    · obtain ⟨s', hrun, hgood, hbreak, -, hpages⟩ := growHeap_fits _ [] hs.good hs.pages rfl hroom.1 hroom.2
      rw [hrun]
      refine ⟨_, _, rfl,
        { good := hgood
          low := ?_
          high := hbreak
          pages := hpages }⟩
      have hstart := hs.low
      simp only
      omega
    · -- the first frame cannot be had, so nothing was mapped yet
      have hpos : pagesUpTo (s.programBreak + increment.toNat) s.heapEnd ≠ 0 := by
        intro hzero
        rw [hzero] at hroom
        exact hroom ⟨Nat.zero_le _, Nat.zero_le _⟩
      have hnone : s.freeCount = 0 := by
        obtain h | h | h := hfits
        · exact absurd h hpos
        · exact h
        · exact absurd h hroom
      have hmore : s.programBreak + increment.toNat > s.heapEnd := by
        unfold pagesUpTo at hpos
        omega
      obtain ⟨-, halloc⟩ | ⟨_, _, _, hless, _⟩ := hs.good.push s.heapEnd (by omega) (by omega)
      · have hrun : growHeap (s.programBreak + increment.toNat) sbrkMaxPages [] s =
            some (false, s) := by
          unfold sbrkMaxPages
          rw [growHeap, if_pos hmore, halloc]
          simp only [if_true, rollback_nil (show s.heapEnd < 2 ^ 32 by omega)]
        rw [hrun]
        exact ⟨_, s, rfl, hs⟩
      · unfold State.freeCount at hnone
        omega
  · exact sbrk_still hs hnull (by omega)

theorem sbrk_overflows (hover : ¬ Fits s increment) :
    ∃ r s', sbrk s increment = some (r, s') ∧ ¬ NoStale s'.machine := by
  obtain ⟨hlow, hhigh, hend⟩ := hs.bounds
  unfold Fits newPages at hover
  by_cases hbig : increment.toNat > 0x1F000000
  · rw [if_pos hbig] at hover
    exact absurd (.inl rfl) hover
  · rw [if_neg hbig] at hover
    push Not at hover
    obtain ⟨hpages, hfree, hroom⟩ := hover
    have hmore : s.programBreak + increment.toNat > s.heapEnd := by
      unfold pagesUpTo at hpages
      omega
    rw [sbrk_grow_eq hs hnull (by omega) hbig]
    unfold State.freeCount at hfree hroom
    unfold pagesUpTo at hroom
    have hmax : sbrkMaxPages = 127 + 1 := rfl
    obtain ⟨f, m', hf, hgood, hused, hmaps, -, hstep⟩ := growHeap_push 127 [] hs.good hs.pages hmore (by omega)
    obtain ⟨h, hheap, hle⟩ := hs.pages
    obtain ⟨s', hrun, hstale⟩ := growHeap_overflow (s.programBreak + increment.toNat) 127
      ([] ++ [f * 4096])
      (s := { s with
        machine := m'
        heapEnd := s.heapEnd + 4096 }) hgood ⟨h + 1, by simp only; omega, by simp only; omega⟩
      (by
        unfold pagesUpTo State.freeCount
        simp only
        omega)
      (by simp only; omega) hmaps hf (by simp)
    rw [hmax, hstep, hrun]
    exact ⟨_, s', rfl, hstale⟩

end SbrkCall

def stackPage (n : Nat) : Nat := 0x700000 + n * 0x1000

theorem mapStackPages_push (frames : List Nat) (hm : Good m) (hn : n < 256)
    (hroom : m.pmm.usedBlocks < totalBlocks) :
    ∃ f m', f < totalBlocks ∧ Good m' ∧ m'.pmm.usedBlocks = m.pmm.usedBlocks + 1 ∧ MapsUser m' (1792 + n) f ∧
      (∀ page g, page < 131072 → page ≠ 1792 + n → MapsUser m page g → MapsUser m' page g) ∧
      mapStackPages (n + 1) (stackPage n) frames m =
        mapStackPages n (stackPage n - 0x1000) (frames ++ [f * 4096]) m' := by
  have hpage : stackPage n / 4096 = 1792 + n := by
    unfold stackPage
    omega
  have hrange : 0x700000 ≤ stackPage n ∧ stackPage n < 0x20000000 := by
    omega
  obtain ⟨hfull, -⟩ | ⟨f, m', hf, -, hne, halloc, hmap, hgood, hpmm, hmaps, hkeep⟩ :=
    hm.push _ hrange.1 hrange.2
  · omega
  · rw [hpage] at hmaps hkeep
    refine ⟨f, m', hf, hgood, by rw [hpmm]; rfl, hmaps, hkeep, ?_⟩
    rw [mapStackPages, if_pos (show stackPage n ≥ userStackLow from hrange.1), halloc]
    simp only [if_neg hne, hmap, bind_eq_bind, bind_some, if_neg (show ¬ (0 : Int) < 0 by decide)]

theorem mapStackPages_full (hm : Good m) (hn : n < 256) (hfull : ¬ m.pmm.usedBlocks < totalBlocks) :
    mapStackPages (n + 1) (stackPage n) frames m = some (enomem, freeFrames frames m) := by
  have hrange : 0x700000 ≤ stackPage n ∧ stackPage n < 0x20000000 := by
    unfold stackPage
    omega
  obtain ⟨-, hnone⟩ | ⟨_, _, _, hroom, _⟩ := hm.push _ hrange.1 hrange.2
  · rw [mapStackPages, if_pos (show stackPage n ≥ userStackLow from hrange.1), hnone]
    rfl
  · exact absurd hroom hfull

theorem stackPage_succ (n : Nat) : stackPage (n + 1) - 0x1000 = stackPage n := by
  unfold stackPage
  omega

theorem mapStackPages_fits (page : Nat) (frames : List Nat) (hm : Good m)
    (hn : n ≤ 256) (hpage : n ≠ 0 → page = stackPage (n - 1)) (hfree : n ≤ totalBlocks - m.pmm.usedBlocks) :
    ∃ m', mapStackPages n page frames m = some (0, m') ∧ Good m' ∧ m.pmm.usedBlocks ≤ m'.pmm.usedBlocks := by
  induction n generalizing page frames m with
  | zero => exact ⟨m, rfl, hm, le_rfl⟩
  | succ n ih =>
    rw [hpage (by omega), Nat.add_sub_cancel]
    obtain ⟨f, m', -, hgood, hused, -, -, hstep⟩ :=
      mapStackPages_push frames hm (show n < 256 by omega) (by omega)
    obtain ⟨m'', hrun, hgood', hmono⟩ := ih (stackPage n - 0x1000)
      (frames ++ [f * 4096]) hgood (by omega)
      (fun hne => by
        obtain ⟨k, rfl⟩ : ∃ k, n = k + 1 := ⟨n - 1, by omega⟩
        exact stackPage_succ k)
      (by omega)
    exact ⟨m'', hstep.trans hrun, hgood', by omega⟩

theorem mapStackPages_overflow {top : Nat} (page : Nat) (frames : List Nat)
    (hm : Good m) (hn : n ≤ 256) (hpage : n ≠ 0 → page = stackPage (n - 1))
    (hless : totalBlocks - m.pmm.usedBlocks < n) (htop : 1792 + n ≤ top) (hrange : top < 131072)
    (hmaps : MapsUser m top f) (hf : f < totalBlocks) (hmem : f * 4096 ∈ frames) :
    ∃ m', mapStackPages n page frames m = some (enomem, m') ∧ ¬ NoStale m' := by
  induction n generalizing page frames m with
  | zero => omega
  | succ n ih =>
    rw [hpage (by omega), Nat.add_sub_cancel]
    by_cases hroom : m.pmm.usedBlocks < totalBlocks
    · obtain ⟨g, m', -, hgood, hused, -, hkeep, hstep⟩ :=
        mapStackPages_push frames hm (show n < 256 by omega) hroom
      rw [hstep]
      exact ih _ _ hgood (by omega)
        (fun hne => by
          obtain ⟨k, rfl⟩ : ∃ k, n = k + 1 := ⟨n - 1, by omega⟩
          exact stackPage_succ k)
        (by omega) (by omega) (hkeep top f hrange (by omega) hmaps)
        (mem_append_left _ hmem)
    · rw [mapStackPages_full hm (by omega) hroom]
      exact ⟨_, rfl, not_noStale_of_freed hm.layout hrange hmaps hf hmem⟩

def StackFits (s : State) : Prop := s.freeCount = 0 ∨ userStackPages ≤ s.freeCount

theorem mapUserStack_fits (hm : Good s.machine) (hfits : StackFits s) :
    ∃ r m', mapUserStack s.machine = some (r, m') ∧ Good m' ∧
    s.machine.pmm.usedBlocks ≤ m'.pmm.usedBlocks := by
  unfold StackFits State.freeCount at hfits
  have hpage : userStackBase - 0x1000 = stackPage 255 := rfl
  have hpages : userStackPages = 255 + 1 := rfl
  unfold mapUserStack
  obtain hnone | hroom := hfits
  · rw [hpage, hpages, mapStackPages_full hm (by decide) (by omega)]
    exact ⟨_, s.machine, rfl, hm, le_rfl⟩
  · obtain ⟨m', hrun, hgood, hmono⟩ := mapStackPages_fits (n := userStackPages) _ [] hm
      (by decide) (fun _ => hpage) hroom
    exact ⟨0, m', hrun, hgood, hmono⟩

theorem mapUserStack_overflows (hm : Good s.machine) (hover : ¬ StackFits s) :
    ∃ r m', mapUserStack s.machine = some (r, m') ∧ ¬ NoStale m' := by
  unfold StackFits State.freeCount userStackPages at hover
  have hpage : userStackBase - 0x1000 = stackPage 255 := rfl
  have hpages : userStackPages = 255 + 1 := rfl
  unfold mapUserStack
  obtain ⟨f, m', hf, hgood, hused, hmaps, -, hstep⟩ :=
    mapStackPages_push [] hm (show 255 < 256 by decide) (by omega)
  obtain ⟨m'', hrun, hstale⟩ := mapStackPages_overflow (n := 255) (stackPage 255 - 0x1000)
    ([] ++ [f * 4096]) hgood (by decide) (fun _ => stackPage_succ 254) (by omega)
    (by decide) (by decide) hmaps hf (by simp)
  exact ⟨_, m'', hstep.trans hrun, hstale⟩

inductive Call where
  | sbrk (increment : Int)
  | mapUserStack

def Call.run (s : State) : Call → Option State
  | .sbrk increment => (Sbrk.sbrk s increment).map Prod.snd
  | .mapUserStack => (Sbrk.mapUserStack s.machine).map fun (_, m) => { s with machine := m }

def Call.Fits (s : State) : Call → Prop
  | .sbrk increment => Sbrk.Fits (start s) increment
  | .mapUserStack => StackFits s

def RunClean (s : State) : List Call → Prop
  | [] => NoStale s.machine
  | c :: calls => NoStale s.machine ∧ ∃ s', c.run s = some s' ∧ RunClean s' calls

def RunFits (s : State) : List Call → Prop
  | [] => True
  | c :: calls => c.Fits s ∧ ∃ s', c.run s = some s' ∧ RunFits s' calls

structure Inv (s : State) : Prop where
  good : Good s.machine
  heap : s.programBreak = 0 ∨ HeapInv s

theorem start_start (s : State) : start (start s) = start s := by
  unfold start
  by_cases hnull : s.programBreak = 0
  · rw [if_pos hnull]
    exact if_neg (show heapStart ≠ 0 by decide)
  · rw [if_neg hnull, if_neg hnull]

theorem sbrk_start (s : State) (increment : Int) : sbrk (start s) increment = sbrk s increment := by
  unfold sbrk
  rw [start_start]

theorem Call.run_fits (hs : Inv s) {c : Call} (hfits : c.Fits s) : ∃ s', c.run s = some s' ∧ Inv s' := by
  cases c with
  | sbrk increment =>
    have hheap := start_inv hs.good hs.heap
    have hnull : (start s).programBreak ≠ 0 := by
      have := hheap.bounds.1
      omega
    obtain ⟨r, s', hrun, hinv⟩ := sbrk_fits hheap hnull hfits
    rw [sbrk_start] at hrun
    refine ⟨s', ?_, hinv.good, .inr hinv⟩
    simp only [run, hrun]
    rfl
  | mapUserStack =>
    obtain ⟨r, m', hrun, hgood, hmono⟩ := mapUserStack_fits hs.good hfits
    refine ⟨{ s with machine := m' }, ?_, hgood, ?_⟩
    · simp only [run, hrun]
      rfl
    · obtain hnull | hheap := hs.heap
      · exact .inl hnull
      · obtain ⟨h, hend, hle⟩ := hheap.pages
        exact .inr
          { good := hgood
            low := hheap.low
            high := hheap.high
            pages := ⟨h, hend, le_trans hle hmono⟩ }

theorem Call.run_overflows (hs : Inv s) {c : Call} (hover : ¬ c.Fits s) :
    ∃ s', c.run s = some s' ∧ ¬ NoStale s'.machine := by
  cases c with
  | sbrk increment =>
    have hheap := start_inv hs.good hs.heap
    have hnull : (start s).programBreak ≠ 0 := by
      have := hheap.bounds.1
      omega
    obtain ⟨r, s', hrun, hstale⟩ := sbrk_overflows hheap hnull hover
    rw [sbrk_start] at hrun
    refine ⟨s', ?_, hstale⟩
    simp only [run, hrun]
    rfl
  | mapUserStack =>
    obtain ⟨r, m', hrun, hstale⟩ := mapUserStack_overflows hs.good hover
    refine ⟨{ s with machine := m' }, ?_, hstale⟩
    simp only [run, hrun]
    rfl

theorem RunClean.head {calls : List Call} (hclean : RunClean s calls) : NoStale s.machine := by
  cases calls with
  | nil => exact hclean
  | cons c calls => exact hclean.1

theorem runClean_iff (hs : Inv s) (calls : List Call) : RunClean s calls ↔ RunFits s calls := by
  induction calls generalizing s with
  | nil => exact ⟨fun _ => trivial, fun _ => hs.good.clean⟩
  | cons c calls ih =>
    by_cases hfits : c.Fits s
    · obtain ⟨s', hrun, hs'⟩ := Call.run_fits hs hfits
      constructor
      · rintro ⟨-, s'', hrun', hclean⟩
        rw [hrun] at hrun'
        cases hrun'
        exact ⟨hfits, s', hrun, (ih hs').mp hclean⟩
      · rintro ⟨-, s'', hrun', hrest⟩
        rw [hrun] at hrun'
        cases hrun'
        exact ⟨hs.good.clean, s', hrun, (ih hs').mpr hrest⟩
    · obtain ⟨s', hrun, hstale⟩ := Call.run_overflows hs hfits
      constructor
      · rintro ⟨-, s'', hrun', hclean⟩
        rw [hrun] at hrun'
        cases hrun'
        exact absurd hclean.head hstale
      · exact fun h => absurd h.1 hfits

def fresh (m : Machine) : State :=
  { machine := m
    programBreak := 0
    heapEnd := 0 }

theorem fresh_inv {m₀ : Machine} (hs : Started m₀ m) : Inv (fresh m) := by
  have hkernel : kernelPages = 512 := by decide
  have hdirLow := hs.dirLow
  have htotal := Pmm.totalBlocks_eq
  refine
    { good :=
        { layout := hs.layout
          dirLow := hdirLow
          dir := hs.intact m.dir (by omega) (.inl hdirLow)
          clean := fun i j hi hj hpresent huser =>
            absurd huser.2 (hs.kernelPte i hi hpresent j hj) }
      heap := .inl rfl }

/-- A run has no stale mapping in any of its states exactly when each call either maps all its pages or none. -/
theorem sbrk_run_clean_iff {m₀ m : Machine} (hboot : Boot m₀) (hinit : initPaging m₀ = some m)
    (calls : List Call) : RunClean (fresh m) calls ↔ RunFits (fresh m) calls :=
  runClean_iff (fresh_inv (hboot.started hinit)) calls

theorem boot_freeCount (hs : Started bootMachine m) : 0 < (start (fresh m)).freeCount := by
  have hclear := (heap_clear_iff hs (f := 641) (by decide)).mpr le_rfl
  obtain ⟨hfull, -⟩ | ⟨_, _, _, _, hroom, _⟩ := Pmm.pmmAllocBlock_cases hs.layout.booted
  · rw [hfull 641 (by decide)] at hclear
    cases hclear
  · exact Nat.sub_pos_of_lt hroom

/-- The first page of the heap of the first process. -/
theorem sbrk_run_clean_one_page : ∃ m, initPaging bootMachine = some m ∧ RunClean (fresh m) [.sbrk 4096] := by
  obtain ⟨m, hinit, hs⟩ := bootMachine_started
  have hfree := boot_freeCount hs
  have hpages : newPages (start (fresh m)) 4096 = 1 := by
    simp [newPages, start, fresh, pagesUpTo, heapStart]
  have hfits : (Call.sbrk 4096).Fits (fresh m) := by
    refine .inr (.inr ⟨?_, ?_⟩)
    · rw [hpages]
      decide
    · rw [hpages]
      exact hfree
  obtain ⟨s', hrun, -⟩ := Call.run_fits (fresh_inv hs) hfits
  exact ⟨m, hinit, (sbrk_run_clean_iff bootMachine_boot hinit [.sbrk 4096]).mpr ⟨hfits, s', hrun, trivial⟩⟩

/-- A first `sbrk` of 129 pages fails, and leaves 128 pages mapped to free frames. -/
theorem sbrk_large_leaves_stale :
    ∃ m s', initPaging bootMachine = some m ∧ Call.run (fresh m) (.sbrk 528384) = some s' ∧
    ¬ NoStale s'.machine := by
  obtain ⟨m, hinit, hs⟩ := bootMachine_started
  have hfree := boot_freeCount hs
  have hpages : newPages (start (fresh m)) 528384 = 129 := by
    simp [newPages, start, fresh, pagesUpTo, heapStart]
  have hover : ¬ (Call.sbrk 528384).Fits (fresh m) := by
    rintro (hzero | hnone | ⟨hroom, -⟩)
    · rw [hpages] at hzero
      cases hzero
    · omega
    · rw [hpages] at hroom
      exact absurd hroom (by decide)
  obtain ⟨s', hrun, hstale⟩ := Call.run_overflows (fresh_inv hs) hover
  exact ⟨m, s', hinit, hrun, hstale⟩

end JexOs.Sbrk
