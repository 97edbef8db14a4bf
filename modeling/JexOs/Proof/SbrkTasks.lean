import JexOs.Proof.Directories

/-!
# `sbrk` across tasks

`sbrk` maps the pages above the one end of the heap in the directory of the caller only, so the caller gets all of
its range exactly when it already has the pages below that end.
-/

namespace JexOs.Sbrk

open Paging List Option Function
open Pmm (Booted totalBlocks)

structure Grown (dirs : List Nat) (newBreak : Nat) (s₀ s : State) (frames : List Nat) : Prop where
  tables : SameTables dirs s₀.machine s.machine
  fresh : FreshFrames s₀.machine frames
  used : s.machine.pmm.usedBlocks = s₀.machine.pmm.usedBlocks + frames.length
  programBreak : s.programBreak = s₀.programBreak
  heapEnd : s.heapEnd = s₀.heapEnd + 4096 * frames.length
  needed : ∀ k, k < frames.length → s₀.heapEnd + 4096 * k < newBreak
  dir : Intact s.machine s.machine.dir
  pages : ∀ page, page < 131072 → s₀.heapEnd ≤ page * 4096 → page * 4096 < s.heapEnd →
    UserPte s.machine (page / 1024) (page % 1024)
  others : ∀ page, page < 131072 → page * 4096 < s₀.heapEnd →
    s.machine.pte (page / 1024) (page % 1024) = s₀.machine.pte (page / 1024) (page % 1024)
  granted : ∀ i, i < 1024 → (userBit (s.machine.pde i) ↔ userBit (s₀.machine.pde i) ∨
    ∃ page, s₀.heapEnd ≤ page * 4096 ∧ page * 4096 < s.heapEnd ∧ page / 1024 = i)
  away : ∀ e ∈ dirs, e ≠ s₀.machine.dir → s.machine.phys e = s₀.machine.phys e

structure HeapBounds (s : State) : Prop where
  low : heapStart ≤ s.programBreak
  high : s.programBreak ≤ s.heapEnd
  pages : ∃ h, s.heapEnd = heapStart + 4096 * h ∧ h ≤ s.machine.pmm.usedBlocks

variable {s : State} {dirs : List Nat} {m m₀ : Machine} {increment : Int}

theorem HeapBounds.range (hs : HeapBounds s) (hbooted : Booted s.machine.pmm) :
    s.heapEnd % 4096 = 0 ∧ 0x1000000 ≤ s.heapEnd ∧ s.heapEnd ≤ 0x9000000 := by
  obtain ⟨h, hend, hle⟩ := hs.pages
  have hcount := Bitmap.count_le s.machine.pmm.bitmap totalBlocks
  have hcounted : s.machine.pmm.usedBlocks = Bitmap.count s.machine.pmm.bitmap totalBlocks := hbooted.counted
  have htotal := Pmm.totalBlocks_eq
  have hstart : heapStart = 0x1000000 := rfl
  omega

theorem userBit_grantUser (entry : Nat) : userBit (grantUser 7 entry) := by
  unfold grantUser
  by_cases hbit : userBit entry
  · rw [if_neg (fun h => h.2 hbit)]
    exact hbit
  · rw [if_pos ⟨by decide, hbit⟩]
    unfold userBit at *
    omega

section Grow

variable {dirs : List Nat} {newBreak : Nat} {s₀ s : State} {frames : List Nat}

theorem Grown.refl (hm : Directories s₀.machine dirs)
    (hdir : Intact s₀.machine s₀.machine.dir) : Grown dirs newBreak s₀ s₀ [] :=
  { tables := SameTables.refl hm.layout_current.booted
    fresh := by simp [FreshFrames]
    used := rfl
    programBreak := rfl
    heapEnd := rfl
    needed := fun k hk => absurd hk (Nat.not_lt_zero k)
    dir := hdir
    pages := fun page _ hlow hhigh => absurd hhigh (not_lt.mpr hlow)
    others := fun _ _ _ => rfl
    granted := fun i _ => by
      refine ⟨.inl, ?_⟩
      rintro (hbit | ⟨page, hlow, hhigh, -⟩)
      · exact hbit
      · omega
    away := fun _ _ _ => rfl }

variable (hm : Directories s₀.machine dirs) (hs₀ : HeapBounds s₀)
  (hg : Grown dirs newBreak s₀ s frames)

include hm hs₀ hg

omit hm in
theorem Grown.range : s.heapEnd % 4096 = 0 ∧ 0x1000000 ≤ s.heapEnd ∧ s.heapEnd ≤ 0x9000000 := by
  have hbounds : HeapBounds s := by
    obtain ⟨h, hend, hle⟩ := hs₀.pages
    refine
      { low := by rw [hg.programBreak]; exact hs₀.low
        high := by rw [hg.programBreak, hg.heapEnd]; exact le_trans hs₀.high (Nat.le_add_right _ _)
        pages := ⟨h + frames.length, ?_, ?_⟩ }
    · rw [hg.heapEnd]
      omega
    · rw [hg.used]
      omega
  exact hbounds.range hg.tables.booted

theorem Grown.push (hmore : newBreak > s.heapEnd) (hdirPage : s.machine.dir ≠ s.heapEnd / 4096) :
    allocBlock s.machine = (0, s.machine) ∨ ∃ f m', f * 4096 ≠ 0 ∧
        allocBlock s.machine = (f * 4096, { s.machine with pmm := s.machine.pmm.markUsed f }) ∧
        mapPage { s.machine with pmm := s.machine.pmm.markUsed f } (f * 4096) s.heapEnd 7 =
          some (0, m') ∧
        Grown dirs newBreak s₀
          { s with
            machine := m'
            heapEnd := s.heapEnd + 4096 } (frames ++ [f * 4096]) := by
  have htotal := Pmm.totalBlocks_eq
  obtain ⟨halign, hlow, hhigh⟩ := hg.range hs₀
  have hcur := hm.keep hg.tables
  have hlayout := hcur.layout_current
  obtain ⟨-, -, hnone⟩ | ⟨f, hf, hclear, -, -, halloc⟩ := Pmm.pmmAllocBlock_cases hlayout.booted
  · refine .inl ?_
    unfold allocBlock
    rw [hnone]
  · have hbase : 512 ≤ f := hlayout.booted.kernelPages_le hclear
    have hmark := hcur.sameTables_markUsed hf hclear
    have htaken := hcur.keep hmark
    have hintact : Intact { s.machine with pmm := s.machine.pmm.markUsed f } s.machine.dir :=
      ⟨hg.dir.range, hg.dir.table, hg.dir.page, hg.dir.frame⟩
    have hindex : s.heapEnd / 4194304 < 128 := by omega
    have hpresent := htaken.layout_current.low (s.heapEnd / 4194304) hindex
    have htable : s.heapEnd / 4194304 < 1024 ∧ s.heapEnd / 4194304 ≠ 1022 := by omega
    have hmap := mapPage_of_present (f * 4096) 7 htaken.layout_current hintact htable hpresent
    have hpte := fun {k} (hk : k < 1024) (hne : k ≠ 1022) (hkp : present (s.machine.pde k)) =>
      mapped_pte 7 htaken.layout_current htable hpresent
        (s.heapEnd / 4096 % 1024) (entryFor (f * 4096) 7) hk hne hkp
    have hpde := mapped_pde 7 htaken.layout_current htable hpresent (s.heapEnd / 4096 % 1024)
      (entryFor (f * 4096) 7)
    have hdirHigh : s.machine.dir < totalBlocks := hlayout.dirTaken.1
    have hfree : Free s₀.machine f := by
      refine ⟨hf, ?_⟩
      rw [← Bool.not_eq_true]
      intro hset
      rw [hg.tables.bits f hf hset] at hclear
      cases hclear
    refine .inr ⟨f, _, by omega, ?_, hmap,
      { tables := hg.tables.trans (hmark.trans
          (htaken.sameTables_mapped (by omega) hpresent _ _ _))
        fresh := hg.fresh.append hfree
        used := ?_
        programBreak := hg.programBreak
        heapEnd := ?_
        needed := ?_
        dir := mapped_intact (f := s.machine.dir) 7 htaken.layout_current htable hpresent _ _
          hintact (by omega) (by omega)
        pages := ?_
        others := ?_
        granted := ?_
        away := ?_ }⟩
    · unfold allocBlock
      rw [halloc]
      rfl
    · change s.machine.pmm.usedBlocks + 1 = _
      rw [hg.used, length_append, length_singleton]
      omega
    · change s.heapEnd + 4096 = _
      rw [length_append, length_singleton, hg.heapEnd]
      omega
    · intro k hk
      rw [length_append, length_singleton] at hk
      by_cases hlast : k < frames.length
      · exact hg.needed k hlast
      · have hend := hg.heapEnd
        omega
    · intro page hpage hfrom hbelow
      have hentry := hpte (k := page / 1024) (by omega) (by omega) (hlayout.low _ (by omega)) (page % 1024)
      simp only at hbelow
      unfold UserPte
      rw [hentry]
      by_cases hcell : page / 1024 = s.heapEnd / 4194304 ∧ page % 1024 = s.heapEnd / 4096 % 1024
      · rw [if_pos hcell, present_entryFor, userBit_entryFor]
        exact ⟨rfl, rfl⟩
      · rw [if_neg hcell]
        exact hg.pages page hpage hfrom (by omega)
    · intro page hpage hbelow
      have hentry := hpte (k := page / 1024) (by omega) (by omega) (hlayout.low _ (by omega)) (page % 1024)
      have hend := hg.heapEnd
      rw [hentry, if_neg (by omega)]
      exact hg.others page hpage hbelow
    · intro i hi
      rw [hpde]
      by_cases heq : i = s.heapEnd / 4194304
      · subst heq
        rw [update_self]
        have hend := hg.heapEnd
        refine ⟨fun _ => .inr ⟨s.heapEnd / 4096, ?_, ?_, ?_⟩, fun _ => userBit_grantUser _⟩
        · omega
        · simp only
          omega
        · omega
      · rw [update_of_ne heq]
        refine (hg.granted i hi).trans (or_congr_right ⟨?_, ?_⟩)
        · rintro ⟨page, hfrom, hbelow, hsame⟩
          exact ⟨page, hfrom, by simp only; omega, hsame⟩
        · rintro ⟨page, hfrom, hbelow, hsame⟩
          simp only at hbelow
          refine ⟨page, hfrom, ?_, hsame⟩
          omega
    · intro e he hne
      have hne' : e ≠ s.machine.dir := by
        rw [hg.tables.dir]
        exact hne
      exact (htaken.mapped_phys (by omega) hpresent _ _ _ he hne').trans (hg.away e he hne)

structure Undone (dirs : List Nat) (s₀ s : State) : Prop where
  tables : SameTables dirs s₀.machine s.machine
  programBreak : s.programBreak = s₀.programBreak
  heapEnd : s.heapEnd = s₀.heapEnd

theorem Grown.rollback {m : Machine} (hsame : SameTables dirs s.machine m) :
    Undone dirs s₀ (rollback frames { s with machine := m }) := by
  obtain ⟨-, -, hhigh⟩ := hg.range hs₀
  have hend := hg.heapEnd
  exact
    { tables := hm.sameTables_free (hg.tables.trans hsame) hg.fresh
      programBreak := hg.programBreak
      heapEnd := by
        simp only [Sbrk.rollback]
        omega }

theorem Grown.growHeap {room : Nat} (hroom : frames.length + room = sbrkMaxPages)
    (hdirPage : ∀ page, s₀.heapEnd ≤ page * 4096 → page * 4096 < newBreak →
      page * 4096 < s₀.heapEnd + 4096 * sbrkMaxPages → page ≠ s₀.machine.dir) :
    ∃ done s', growHeap newBreak room frames s = some (done, s') ∧
      (done = true → newBreak ≤ s'.heapEnd ∧ ∃ frames', Grown dirs newBreak s₀ s' frames') ∧
      (done = false → Undone dirs s₀ s') := by
  induction room generalizing frames s with
  | zero =>
    rw [Sbrk.growHeap]
    split
    · refine ⟨false, _, rfl, by simp, fun _ => hg.rollback hm hs₀ ?_⟩
      exact (hm.keep hg.tables).sameTables_alloc
    · exact ⟨true, s, rfl, fun _ => ⟨by omega, frames, hg⟩, by simp⟩
  | succ room ih =>
    rw [Sbrk.growHeap]
    split
    · rename_i hmore
      obtain ⟨halign, hlow, hhigh⟩ := hg.range hs₀
      have hend := hg.heapEnd
      have hnext : (s.heapEnd + 4096) % 2 ^ 32 = s.heapEnd + 4096 := by omega
      have hne : s.machine.dir ≠ s.heapEnd / 4096 := by
        rw [hg.tables.dir]
        exact (hdirPage (s.heapEnd / 4096) (by omega) (by omega) (by omega)).symm
      obtain hnone | ⟨f, m', hf, halloc, hmap, hg'⟩ := hg.push hm hs₀ hmore hne
      · refine ⟨false, _, by rw [hnone]; rfl, by simp, fun _ => ?_⟩
        exact hg.rollback hm hs₀ (SameTables.refl hg.tables.booted)
      · obtain ⟨done, s', hrun, hspec⟩ := ih hg' (by
          rw [length_append, length_singleton]
          omega)
        refine ⟨done, s', ?_, hspec⟩
        rw [halloc]
        simp only [if_neg hf, hmap, bind_eq_bind, bind_some,
          if_neg (show ¬ (0 : Int) < 0 by decide), hnext]
        exact hrun
    · exact ⟨true, s, rfl, fun _ => ⟨by omega, frames, hg⟩, by simp⟩

end Grow

/-- No page the call can map is the identity page of the caller's directory, and that page is in
place. -/
structure DirectorySafe (s : State) (increment : Int) : Prop where
  intact : Intact s.machine s.machine.dir
  page : ∀ page, (start s).heapEnd ≤ page * 4096 →
    page * 4096 < (start s).programBreak + increment.toNat →
    page * 4096 < (start s).heapEnd + 4096 * sbrkMaxPages → page ≠ s.machine.dir

def Granted (m : Machine) (old : Nat) (increment : Int) : Prop :=
  ∀ page, old < (page + 1) * 4096 → page * 4096 < old + increment.toNat →
    UserPage m m.dir (page / 1024) (page % 1024)

/-- The caller has the pages of the range that lie below the end of the heap, at the latest when the call maps one.
-/
def Backed (s : State) (increment : Int) : Prop :=
  ∀ page, s.programBreak < (page + 1) * 4096 → page * 4096 < s.heapEnd →
    page * 4096 < s.programBreak + increment.toNat →
    UserPte s.machine (page / 1024) (page % 1024) ∧
      (userBit (s.machine.pde (page / 1024)) ∨
        ∃ q, s.heapEnd ≤ q * 4096 ∧ q * 4096 < s.programBreak + increment.toNat ∧
          q / 1024 = page / 1024)

theorem start_machine (s : State) : (start s).machine = s.machine := by
  unfold start
  split <;> rfl

theorem start_bounds (hs : s.programBreak = 0 ∨ HeapBounds s) : HeapBounds (start s) := by
  unfold start
  by_cases hnull : s.programBreak = 0
  · rw [if_pos hnull]
    exact
      { low := le_rfl
        high := le_rfl
        pages := ⟨0, rfl, Nat.zero_le _⟩ }
  · rw [if_neg hnull]
    exact hs.resolve_left hnull

theorem usedBlocks_mono {m' : Machine} (hbooted : Booted m.pmm)
    (hsame : SameTables dirs m m') : m.pmm.usedBlocks ≤ m'.pmm.usedBlocks := by
  have hcount : m.pmm.usedBlocks = Bitmap.count m.pmm.bitmap totalBlocks := hbooted.counted
  have hcount' : m'.pmm.usedBlocks = Bitmap.count m'.pmm.bitmap totalBlocks := hsame.booted.counted
  rw [hcount, hcount']
  exact Bitmap.count_mono hsame.bits

theorem sbrk_spec (hm : Directories s.machine dirs) (hs : s.programBreak = 0 ∨ HeapBounds s)
    (hpos : 0 < increment) (hsafe : DirectorySafe s increment) :
    ∃ r s', sbrk s increment = some (r, s') ∧ SameTables dirs s.machine s'.machine ∧ HeapBounds s' ∧
      (r ≠ failed → r = (start s).programBreak ∧ ∃ s₁ frames,
      Grown dirs (r + increment.toNat) (start s) s₁ frames ∧
        r + increment.toNat ≤ s₁.heapEnd ∧ s'.machine = s₁.machine) := by
  have hbounds := start_bounds hs
  have hmachine := start_machine s
  have hbooted := hm.layout_current.booted
  unfold sbrk
  simp only [if_neg (show ¬ increment = 0 by omega)]
  split
  · refine ⟨failed, start s, rfl, ?_, hbounds, by simp⟩
    rw [hmachine]
    exact SameTables.refl hbooted
  · rw [if_neg (by omega)]
    have hnew : ((start s).programBreak + increment.toNat) % 2 ^ 32 =
        (start s).programBreak + increment.toNat := by omega
    have hstart : Grown dirs ((start s).programBreak + increment.toNat) (start s) (start s) [] := by
      refine Grown.refl (by rw [hmachine]; exact hm) ?_
      rw [hmachine]
      exact hsafe.intact
    obtain ⟨done, s₁, hrun, hdone, hfail⟩ := hstart.growHeap (by rw [hmachine]; exact hm) hbounds
      (show 0 + sbrkMaxPages = sbrkMaxPages from Nat.zero_add _) (fun page h₁ h₂ h₃ => by
        rw [hmachine]
        exact hsafe.page page h₁ h₂ h₃)
    rw [hnew, hrun]
    cases done with
    | true =>
      obtain ⟨hreach, frames, hg⟩ := hdone rfl
      have htables : SameTables dirs s.machine s₁.machine := hmachine ▸ hg.tables
      refine ⟨(start s).programBreak, _, rfl, htables, ?_, fun _ => ⟨rfl, s₁, frames, hg, hreach, rfl⟩⟩
      obtain ⟨h, hend, hle⟩ := hbounds.pages
      exact
        { low := le_trans hbounds.low (Nat.le_add_right _ _)
          high := hreach
          pages := ⟨h + frames.length, by rw [hg.heapEnd]; omega, by
            rw [hg.used]
            omega⟩ }
    | false =>
      have hundone := hfail rfl
      have htables : SameTables dirs s.machine s₁.machine := hmachine ▸ hundone.tables
      refine ⟨failed, s₁, rfl, htables, ?_, by simp⟩
      obtain ⟨h, hend, hle⟩ := hbounds.pages
      have hused := usedBlocks_mono hbooted htables
      rw [hmachine] at hle
      exact
        { low := by rw [hundone.programBreak]; exact hbounds.low
          high := by rw [hundone.programBreak, hundone.heapEnd]; exact hbounds.high
          pages := ⟨h, by rw [hundone.heapEnd, hend], le_trans hle hused⟩ }

theorem granted_iff {s' : State} {old : Nat}
    (hm : Directories s.machine dirs) (hs : s.programBreak = 0 ∨ HeapBounds s) (hpos : 0 < increment)
    (hsafe : DirectorySafe s increment) (hcall : sbrk s increment = some (old, s'))
    (hne : old ≠ failed) : Granted s'.machine old increment ↔ Backed (start s) increment := by
  obtain ⟨r, s'', hrun, -, -, hspec⟩ := sbrk_spec hm hs hpos hsafe
  rw [hcall] at hrun
  cases hrun
  obtain ⟨rfl, s₁, frames, hg, hreach, hmachine⟩ := hspec hne
  have hstart : Directories (start s).machine dirs := by
    rw [start_machine]
    exact hm
  have hbounds := start_bounds hs
  obtain ⟨halign, hlow, hhigh⟩ := hbounds.range hstart.layout_current.booted
  obtain ⟨-, -, hhigh₁⟩ := hg.range hbounds
  have hlayout := (hstart.keep hg.tables).layout_current
  have hend := hg.heapEnd
  -- the pages the loop mapped are those of the request above the old end
  have hnew : ∀ q, (start s).heapEnd ≤ q * 4096 → q * 4096 < s₁.heapEnd →
      q * 4096 < (start s).programBreak + increment.toNat := by
    intro q hq hq₁
    have hneeded := hg.needed (q - (start s).heapEnd / 4096) (by omega)
    omega
  have hbit : ∀ i, i < 1024 → (userBit (s₁.machine.pde i) ↔
      userBit ((start s).machine.pde i) ∨ ∃ q, (start s).heapEnd ≤ q * 4096 ∧
        q * 4096 < (start s).programBreak + increment.toNat ∧ q / 1024 = i) := by
    intro i hi
    refine (hg.granted i hi).trans (or_congr_right ⟨?_, ?_⟩)
    · rintro ⟨q, hq, hq₁, hsame⟩
      exact ⟨q, hq, hnew q hq hq₁, hsame⟩
    · rintro ⟨q, hq, hq₁, hsame⟩
      exact ⟨q, hq, by omega, hsame⟩
  have hpage : ∀ page, page * 4096 < (start s).programBreak + increment.toNat →
      (UserPage s'.machine s'.machine.dir (page / 1024) (page % 1024) ↔
        userBit (s₁.machine.pde (page / 1024)) ∧
          UserPte s₁.machine (page / 1024) (page % 1024)) := by
    intro page hrange
    rw [hmachine]
    constructor
    · exact fun huser => ⟨huser.2.1, huser.2.2⟩
    · exact fun huser => ⟨hlayout.low _ (by omega), huser.1, huser.2⟩
  constructor
  · intro hgranted page hfrom hbelow hrange
    have huser := (hpage page hrange).mp (hgranted page hfrom hrange)
    have hpte := hg.others page (by omega) hbelow
    refine ⟨?_, (hbit _ (by omega)).mp huser.1⟩
    unfold UserPte
    rw [← hpte]
    exact huser.2
  · intro hbacked page hfrom hrange
    refine (hpage page hrange).mpr ?_
    by_cases hbelow : page * 4096 < (start s).heapEnd
    · obtain ⟨huser, hgrant⟩ := hbacked page hfrom hbelow hrange
      refine ⟨(hbit _ (by omega)).mpr hgrant, ?_⟩
      unfold UserPte
      rw [hg.others page (by omega) hbelow]
      exact huser
    · have hmapped := hg.pages page (by omega) (by omega) (by omega)
      exact ⟨(hbit _ (by omega)).mpr (.inr ⟨page, by omega, hrange, rfl⟩), hmapped⟩

/-- The tasks as far as their memory goes. The machine runs on the directory of the current task. -/
structure Tasks where
  state : State
  dirs : List Nat

inductive Move where
  | sbrk (increment : Int)
  | fork
  | switch (dir : Nat)

def Move.run (t : Tasks) : Move → Option Tasks
  | .sbrk increment => (Sbrk.sbrk t.state increment).map fun (_, s) => { t with state := s }
  | .fork =>
    (clonePageDirectory t.state.machine (currentPageDir t.state.machine)).map fun (dst, m) =>
      { state := { t.state with machine := m }
        dirs := if dst = 0 then t.dirs else dst / 4096 :: t.dirs }
  | .switch dir =>
    some { t with state := { t.state with machine := { t.state.machine with dir := dir } } }

def Move.Allowed (t : Tasks) : Move → Prop
  | .sbrk increment => 0 < increment
  | .fork => True
  | .switch dir => dir ∈ t.dirs

def Move.Safe (t : Tasks) : Move → Prop
  | .sbrk increment => DirectorySafe t.state increment
  | .fork => CopySafe t.state.machine
  | .switch _ => True

def SafeMove (t t' : Tasks) : Prop := ∃ c : Move, c.Allowed t ∧ c.Safe t ∧ c.run t = some t'

structure Tasks.Inv (t : Tasks) : Prop where
  directories : Directories t.state.machine t.dirs
  heap : t.state.programBreak = 0 ∨ HeapBounds t.state

theorem SafeMove.inv {t t' : Tasks} (hmove : SafeMove t t') (ht : t.Inv) : t'.Inv := by
  obtain ⟨c, hallowed, hsafe, hrun⟩ := hmove
  cases c with
  | sbrk increment =>
    obtain ⟨r, s', hcall, hsame, hbounds, -⟩ := sbrk_spec ht.directories ht.heap hallowed hsafe
    simp only [Move.run, hcall, map_some] at hrun
    cases hrun
    exact ⟨ht.directories.keep hsame, .inr hbounds⟩
  | fork =>
    obtain ⟨⟨dst, m'⟩, hclone, rfl⟩ := map_eq_some_iff.mp hrun
    obtain ⟨hsame, hdirs⟩ := ht.directories.fork hsafe hclone
    refine ⟨hdirs, ?_⟩
    obtain hnull | hheap := ht.heap
    · exact .inl hnull
    · obtain ⟨h, hend, hle⟩ := hheap.pages
      have hused := usedBlocks_mono ht.directories.layout_current.booted hsame
      exact .inr
        { low := hheap.low
          high := hheap.high
          pages := ⟨h, hend, le_trans hle hused⟩ }
  | switch dir =>
    cases hrun
    refine ⟨ht.directories.switch hallowed, ?_⟩
    obtain hnull | hheap := ht.heap
    · exact .inl hnull
    · exact .inr
        { low := hheap.low
          high := hheap.high
          pages := hheap.pages }

theorem run_inv {t t' : Tasks} (hrun : Relation.ReflTransGen SafeMove t t') (ht : t.Inv) : t'.Inv := by
  induction hrun with
  | refl => exact ht
  | tail _ hmove ih => exact hmove.inv ih

def first (m : Machine) : Tasks :=
  { state := fresh m
    dirs := [m.dir] }

theorem first_inv (hm : Layout m) : (first m).Inv := by
  refine ⟨{ current := mem_singleton_self _, layout := ?_, outside := ?_ }, .inl rfl⟩
  · intro d hd
    obtain rfl := mem_singleton.mp hd
    exact hm
  · intro d hd e he i hi hne hp
    obtain rfl := mem_singleton.mp hd
    obtain rfl := mem_singleton.mp he
    exact hm.outside i hi hne hp

/-- In every run, a call that returns the old break gives the caller every page of its range exactly when its own
directory already has those of them that lie below the end of the heap. -/
theorem sbrk_tasks_granted_iff {m₀ m : Machine} {t : Tasks} {s' : State} {increment : Int} {old : Nat}
    (hboot : Boot m₀) (hinit : initPaging m₀ = some m)
    (hrun : Relation.ReflTransGen SafeMove (first m) t) (hpos : 0 < increment)
    (hsafe : DirectorySafe t.state increment) (hcall : sbrk t.state increment = some (old, s'))
    (hne : old ≠ failed) : Granted s'.machine old increment ↔ Backed (start t.state) increment := by
  have ht := run_inv hrun (first_inv (hboot.started hinit).layout)
  exact granted_iff ht.directories ht.heap hpos hsafe hcall hne

theorem started_copySafe (hs : Started m₀ m) : CopySafe m :=
  { dir := hs.intact m.dir hs.layout.dirTaken.1 (.inl hs.dirLow)
    pages := fun i j hi hj hdeep huser => absurd huser.2 (hs.kernelPte i hi hdeep.1 j hj)
    frames := fun f hfree _ => hs.intact f hfree.1 (.inr hfree.2) }

theorem started_framesBefore (hs : Started m₀ m) : framesBefore m 1024 ≤ 2 := by
  have hle : ∑ k ∈ Finset.range 1024, (if Deep m k then 1 + pagesBelow m k 1024 else 0) ≤
      ∑ k ∈ Finset.range 1024, (if k = 32 then 1 else 0) := by
    refine Finset.sum_le_sum fun k hk => ?_
    rw [Finset.mem_range] at hk
    split
    · rename_i hdeep
      have hlast : k = 32 := hdeep.2.resolve_left (hs.kernelPde k hk)
      have hpages : pagesBelow m k 1024 = 0 := by
        unfold pagesBelow
        rw [Nat.count_eq_card_filter_range, Finset.card_eq_zero, Finset.filter_eq_empty_iff]
        exact fun j hj huser => hs.kernelPte k hk hdeep.1 j (Finset.mem_range.mp hj) huser.2
      rw [if_pos hlast, hpages]
    · exact Nat.zero_le _
  rw [Finset.sum_ite_eq' (Finset.range 1024) 32 (fun _ => 1), if_pos (by simp)] at hle
  unfold framesBefore
  omega

section FirstFork

variable {m : Machine} (hs : Started bootMachine m)

include hs

theorem boot_freeBelow (n : Nat) (hn : 641 + n ≤ 32768) : n ≤ Pmm.freeBelow m.pmm (641 + n) := by
  induction n with
  | zero => exact Nat.zero_le _
  | succ n ih =>
    have hclear := (heap_clear_iff hs (f := 641 + n) (by omega)).mpr (by omega)
    rw [← Nat.add_assoc, Pmm.freeBelow_succ, if_pos hclear]
    exact Nat.succ_le_succ (ih (by omega))

theorem boot_fork : ∃ d m', Move.run (first m) .fork = some
        { state := fresh m'
          dirs := [d, m.dir] } ∧
    Directories m' [d, m.dir] ∧ m'.dir = 300 ∧ d ≠ m'.dir ∧ Intact m' m'.dir ∧
    ¬ userBit (m'.phys d 4) ∧ ∃ f, Free m' f := by
  have hsafe := started_copySafe hs
  have hframes := started_framesBefore hs
  have hdir : m.dir = 300 := hs.dir
  have hinv := first_inv hs.layout
  obtain ⟨dst, m', hclone, hfail, hdone⟩ := clonePageDirectory_spec hs.layout hsafe
  have hroom := boot_freeBelow hs 2 (by decide)
  have hzero : dst ≠ 0 := by
    intro hzero
    have hmono : Pmm.freeBelow m.pmm (641 + 2) ≤ Pmm.freeBelow m.pmm totalBlocks :=
      Nat.count_monotone _ (by decide)
    omega
  obtain ⟨d, rfl, hd, -, hc, -, hcloned⟩ := hdone hzero
  have hdirs := (hinv.directories.fork hsafe hclone).2
  rw [if_neg hzero, Nat.mul_div_cancel d (by decide)] at hdirs
  refine ⟨d, m', ?_, hdirs, hc.dir.trans hdir, ?_, ?_, ?_, 643, by decide, ?_⟩
  · have hmap : Move.run (first m) .fork =
        (clonePageDirectory m (currentPageDir m)).map fun (dst, m') =>
          { state := { fresh m with machine := m' }
            dirs := if dst = 0 then [m.dir] else dst / 4096 :: [m.dir] } := rfl
    rw [hmap, hclone, map_some]
    simp only [if_neg hzero, Nat.mul_div_cancel d (show 0 < 4096 by decide)]
    rfl
  · rw [hc.dir]
    exact hs.layout.ne_dir_of_clear hd.2
  · rw [hc.dir]
    exact hc.intact (by omega) hsafe.dir
  · have hentry := hcloned 4 (by decide) (by decide)
    have hshared : ¬ Deep m 4 := by
      rintro ⟨-, hbit | heq⟩
      · exact hs.kernelPde 4 (by decide) hbit
      · cases heq
    unfold EntryCloned at hentry
    rw [if_neg hshared] at hentry
    rw [hentry]
    exact hs.kernelPde 4 (by decide)
  · exact (hc.taken.clear_iff (by decide)).mpr ⟨(heap_clear_iff hs (by decide)).mpr (by decide),
      le_trans hframes hroom⟩

end FirstFork

theorem sbrk_first (hm : Directories m dirs)
    (hdir : Intact m m.dir) (hne : m.dir ≠ 4096) (hfree : ∃ f, Free m f) (hpos : 0 < increment)
    (hpage : increment ≤ 4096) :
    ∃ s₁ frames, Grown dirs (heapStart + increment.toNat) (start (fresh m)) s₁ frames ∧
      s₁.heapEnd = heapStart + 4096 ∧ sbrk (fresh m) increment =
        some (heapStart, { s₁ with programBreak := heapStart + increment.toNat }) := by
  have hheap : heapStart = 0x1000000 := rfl
  have hend : (start (fresh m)).heapEnd = heapStart := rfl
  have hbounds := start_bounds (s := fresh m) (.inl rfl)
  have hg : Grown dirs (heapStart + increment.toNat) (start (fresh m)) (start (fresh m)) [] :=
    Grown.refl hm hdir
  have hmore : heapStart + increment.toNat > (start (fresh m)).heapEnd := by omega
  have hdirPage : (start (fresh m)).machine.dir ≠ (start (fresh m)).heapEnd / 4096 := by
    rw [hend, hheap]
    exact hne
  obtain hnone | ⟨f, m', hf, halloc, hmap, hg'⟩ := hg.push hm hbounds hmore hdirPage
  · -- there is a free frame, so the memory manager finds one
    obtain ⟨g, hg, hclear⟩ := hfree
    obtain ⟨hfull, -⟩ | ⟨f, -, hclear', -, -, halloc⟩ := Pmm.pmmAllocBlock_cases hm.layout_current.booted
    · rw [hfull g hg] at hclear
      cases hclear
    · have hlow : 512 ≤ f := hm.layout_current.booted.kernelPages_le hclear'
      have haddr : (allocBlock m).1 = f * 4096 := by
        unfold allocBlock
        rw [halloc]
        rfl
      have hnull : (allocBlock m).1 = 0 := congrArg Prod.fst hnone
      omega
  · refine ⟨_, _, hg', rfl, ?_⟩
    have hnext : ((start (fresh m)).heapEnd + 4096) % 2 ^ 32 = (start (fresh m)).heapEnd + 4096 := by
      omega
    have hnew : (heapStart + increment.toNat) % 2 ^ 32 = heapStart + increment.toNat := by omega
    have hgrow : growHeap (heapStart + increment.toNat) sbrkMaxPages [] (start (fresh m)) =
        some (true,
          { start (fresh m) with
            machine := m'
            heapEnd := (start (fresh m)).heapEnd + 4096 }) := by
      rw [show sbrkMaxPages = 127 + 1 from rfl, growHeap, if_pos hmore, halloc]
      simp only [if_neg hf, hmap, bind_eq_bind, bind_some, if_neg (show ¬ (0 : Int) < 0 by decide), hnext]
      refine growHeap_done ?_
      simp only
      omega
    have hbreak : (start (fresh m)).programBreak = heapStart := rfl
    unfold sbrk
    simp only [if_neg (show ¬ increment = 0 by omega), hbreak, hnew]
    rw [if_neg (by omega), if_neg (by omega), if_pos hpos, hgrow]
    rfl

theorem sbrk_within (hpos : 0 < increment) (hnull : s.programBreak ≠ 0)
    (hfit : s.programBreak + increment.toNat ≤ s.heapEnd) (hend : s.heapEnd ≤ 0x9000000) : sbrk s increment =
      some (s.programBreak, { s with programBreak := s.programBreak + increment.toNat }) := by
  have hstart : start s = s := if_neg hnull
  have hnew : (s.programBreak + increment.toNat) % 2 ^ 32 = s.programBreak + increment.toNat := by
    omega
  unfold sbrk
  simp only [hstart, hnew, if_neg (show ¬ increment = 0 by omega)]
  rw [if_neg (by omega), if_neg (by omega), if_pos hpos,
    growHeap_done (show ¬ s.programBreak + increment.toNat > s.heapEnd by omega)]
  rfl

/-- After a fork, the parent is given the first page of the heap. -/
theorem sbrk_tasks_granted_parent :
    ∃ m t s', initPaging bootMachine = some m ∧ Relation.ReflTransGen SafeMove (first m) t ∧
      t.dirs.length = 2 ∧ sbrk t.state 100 = some (heapStart, s') ∧ Granted s'.machine heapStart 100 := by
  obtain ⟨m, hinit, hs⟩ := bootMachine_started
  obtain ⟨d, m', hfork, hdirs, hdir, -, hintact, -, hfree⟩ := boot_fork hs
  have hrun : Relation.ReflTransGen SafeMove (first m)
      { state := fresh m'
        dirs := [d, m.dir] } :=
    Relation.ReflTransGen.single ⟨.fork, trivial, started_copySafe hs, hfork⟩
  obtain ⟨s₁, frames, -, -, hcall⟩ := sbrk_first hdirs hintact (by omega) hfree
    (show (0 : Int) < 100 by decide) (by decide)
  have hsafe : DirectorySafe (fresh m') 100 :=
    { intact := hintact
      page := fun page hlow _ _ => by
        have hend : (start (fresh m')).heapEnd = 0x1000000 := rfl
        have hsame : (fresh m').machine.dir = 300 := hdir
        omega }
  have hbacked : Backed (start (fresh m')) 100 := by
    intro page hfrom hbelow
    have hend : (start (fresh m')).heapEnd = 0x1000000 := rfl
    have hbreak : (start (fresh m')).programBreak = 0x1000000 := rfl
    omega
  refine ⟨m, _, _, hinit, hrun, rfl, hcall, ?_⟩
  exact (sbrk_tasks_granted_iff bootMachine_boot hinit hrun (by decide) hsafe hcall (by decide)).mpr hbacked

/-- When the parent has grown the heap by a page, the child's call returns an address in that page,
which is not the child's. -/
theorem sbrk_child_not_granted :
    ∃ m d t₁ t₂ t₃ s', initPaging bootMachine = some m ∧ Move.run (first m) .fork = some t₁ ∧
      Move.run t₁ (.sbrk 100) = some t₂ ∧ d ∈ t₂.dirs ∧ Move.run t₂ (.switch d) = some t₃ ∧
      sbrk t₃.state 100 = some (heapStart + 100, s') ∧ ¬ Granted s'.machine (heapStart + 100) 100 := by
  obtain ⟨m, hinit, hs⟩ := bootMachine_started
  obtain ⟨d, m', hfork, hdirs, hdir, hne, hintact, hkernel, hfree⟩ := boot_fork hs
  obtain ⟨s₁, frames, hg, hend, hcall⟩ := sbrk_first hdirs hintact (by omega) hfree
    (show (0 : Int) < 100 by decide) (by decide)
  have haway : s₁.machine.phys d = m'.phys d := hg.away d mem_cons_self hne
  let t₂ : Tasks :=
    { state := { s₁ with programBreak := heapStart + 100 }
      dirs := [d, m.dir] }
  let t₃ : Tasks := { t₂ with state := { t₂.state with machine := { s₁.machine with dir := d } } }
  have hparent : Move.run
      { state := fresh m'
        dirs := [d, m.dir] } (.sbrk 100) = some t₂ := by
    simp only [Move.run, hcall, map_some]
    rfl
  have hchild := sbrk_within (s := t₃.state) (show (0 : Int) < 100 by decide)
    (show heapStart + 100 ≠ 0 by decide)
    (show heapStart + 100 + 100 ≤ s₁.heapEnd by rw [hend]; decide)
    (show s₁.heapEnd ≤ 0x9000000 by rw [hend]; decide)
  refine ⟨m, d, _, t₂, t₃, _, hinit, hfork, hparent, mem_cons_self, rfl, hchild, ?_⟩
  intro hgranted
  have huser := (hgranted 4096 (by decide) (by decide)).2.1
  rw [haway] at huser
  exact hkernel huser

end JexOs.Sbrk
