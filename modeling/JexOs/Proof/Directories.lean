import JexOs.Proof.Sbrk

/-!
# Several page directories

Tasks made by `fork` have directories of their own that share the kernel's tables. What every
operation keeps of all of them is where their tables are.
-/

namespace JexOs.Paging

open Pmm (Booted Taken freeBelow kernelPages totalBlocks)
open List Function

structure Directories (m : Machine) (dirs : List Nat) : Prop where
  current : m.dir ∈ dirs
  layout : ∀ d ∈ dirs, Layout { m with dir := d }
  outside : ∀ d ∈ dirs, ∀ e ∈ dirs, ∀ i, i < 1024 → i ≠ 1022 → present (m.phys d i) →
    frameOf (m.phys d i) ≠ e

structure SameTables (dirs : List Nat) (m m' : Machine) : Prop where
  dir : m'.dir = m.dir
  active : m'.active = m.active
  booted : Booted m'.pmm
  bits : ∀ f, f < totalBlocks → Bitmap.test m.pmm.bitmap f = true →
    Bitmap.test m'.pmm.bitmap f = true
  frame : ∀ d ∈ dirs, ∀ i, frameOf (m'.phys d i) = frameOf (m.phys d i)
  presence : ∀ d ∈ dirs, ∀ i, present (m'.phys d i) ↔ present (m.phys d i)
  recursive : ∀ d ∈ dirs, m'.phys d 1022 = m.phys d 1022
  absent : ∀ d ∈ dirs, ∀ i, ¬ present (m.phys d i) → m'.phys d i = m.phys d i

section SameTables

variable {dirs : List Nat} {m m' m'' : Machine}

theorem SameTables.refl (hbooted : Booted m.pmm) : SameTables dirs m m :=
  { dir := rfl
    active := rfl
    booted := hbooted
    bits := fun _ _ hf => hf
    frame := fun _ _ _ => rfl
    presence := fun _ _ _ => Iff.rfl
    recursive := fun _ _ => rfl
    absent := fun _ _ _ _ => rfl }

theorem SameTables.trans (h₁ : SameTables dirs m m') (h₂ : SameTables dirs m' m'') : SameTables dirs m m'' :=
  { dir := h₂.dir.trans h₁.dir
    active := h₂.active.trans h₁.active
    booted := h₂.booted
    bits := fun f hf hset => h₂.bits f hf (h₁.bits f hf hset)
    frame := fun d hd i => (h₂.frame d hd i).trans (h₁.frame d hd i)
    presence := fun d hd i => (h₂.presence d hd i).trans (h₁.presence d hd i)
    recursive := fun d hd => (h₂.recursive d hd).trans (h₁.recursive d hd)
    absent := fun d hd i habsent => by
      rw [h₂.absent d hd i (by rw [h₁.presence d hd i]; exact habsent), h₁.absent d hd i habsent] }

theorem SameTables.of_phys_eq (hdir : m'.dir = m.dir) (hactive : m'.active = m.active)
    (hbooted : Booted m'.pmm)
    (hbits : ∀ f, f < totalBlocks → Bitmap.test m.pmm.bitmap f = true → Bitmap.test m'.pmm.bitmap f = true)
    (hphys : ∀ d ∈ dirs, m'.phys d = m.phys d) : SameTables dirs m m' :=
  { dir := hdir
    active := hactive
    booted := hbooted
    bits := hbits
    frame := fun d hd i => by rw [hphys d hd]
    presence := fun d hd i => by rw [hphys d hd]
    recursive := fun d hd => by rw [hphys d hd]
    absent := fun d hd i _ => by rw [hphys d hd] }

theorem Directories.keep (hm : Directories m dirs) (hsame : SameTables dirs m m') : Directories m' dirs := by
  refine
    { current := hsame.dir ▸ hm.current
      layout := ?_
      outside := ?_ }
  · intro d hd
    have hlayout := hm.layout d hd
    exact
      { active := hsame.active.trans hlayout.active
        recursive := (hsame.recursive d hd).trans hlayout.recursive
        dirTaken := ⟨hlayout.dirTaken.1, hsame.bits d hlayout.dirTaken.1 hlayout.dirTaken.2⟩
        booted := hsame.booted
        low := fun i hi => (hsame.presence d hd i).mpr (hlayout.low i hi)
        outside := fun i hi hne hp => by
          rw [show Machine.pde { m' with dir := d } i = m'.phys d i from rfl, hsame.frame d hd i]
          exact hlayout.outside i hi hne ((hsame.presence d hd i).mp hp)
        table := fun i hi hne hp => by
          rw [show Machine.pde { m' with dir := d } i = m'.phys d i from rfl, hsame.frame d hd i]
          obtain ⟨hlow, hhigh, hset⟩ := hlayout.table i hi hne ((hsame.presence d hd i).mp hp)
          exact ⟨hlow, hhigh, hsame.bits _ hhigh hset⟩
        apart := fun i j hi hj hine hjne hip hjp heq => by
          refine hlayout.apart i j hi hj hine hjne ((hsame.presence d hd i).mp hip)
            ((hsame.presence d hd j).mp hjp) ?_
          exact ((hsame.frame d hd i).symm.trans heq).trans (hsame.frame d hd j)
        absent := fun i hi hp => by
          have hp' : ¬ present (m.phys d i) := (hsame.presence d hd i).not.mp hp
          exact (hsame.absent d hd i hp').trans (hlayout.absent i hi hp') }
  · intro d hd e he i hi hne hp
    rw [hsame.frame d hd i]
    exact hm.outside d hd e he i hi hne ((hsame.presence d hd i).mp hp)

end SameTables

section Operations

variable {dirs : List Nat} {m m' : Machine} (hm : Directories m dirs)

include hm

theorem Directories.layout_current : Layout m := hm.layout m.dir hm.current

theorem Directories.switch {d : Nat} (hd : d ∈ dirs) : Directories { m with dir := d } dirs :=
  { current := hd
    layout := hm.layout
    outside := hm.outside }

theorem Directories.sameTables_markUsed {f : Nat} (hf : f < totalBlocks)
    (hclear : Bitmap.test m.pmm.bitmap f = false) : SameTables dirs m { m with pmm := m.pmm.markUsed f } :=
  SameTables.of_phys_eq rfl rfl (hm.layout_current.booted.markUsed hf hclear)
    (fun g _ hg => by simp only [Pmm.State.markUsed, Bitmap.test_set, hg, Bool.or_true])
    (fun _ _ => rfl)

theorem Directories.sameTables_alloc : SameTables dirs m (allocBlock m).2 := by
  unfold allocBlock
  obtain ⟨-, -, hnone⟩ | ⟨f, hf, hclear, -, -, halloc⟩ := Pmm.pmmAllocBlock_cases hm.layout_current.booted
  · rw [hnone]
    exact SameTables.refl hm.layout_current.booted
  · rw [halloc]
    exact hm.sameTables_markUsed hf hclear

theorem Directories.mapped_phys {i e : Nat} (hi : i < 1024 ∧ i ≠ 1022) (hpresent : present (m.pde i))
    (j entry flags : Nat) (he : e ∈ dirs)
    (hne : e ≠ m.dir) : (mapped m i j entry flags).phys e = m.phys e := by
  have htable : e ≠ frameOf (m.pde i) :=
    (hm.outside m.dir hm.current e he i (by omega) (by omega) hpresent).symm
  unfold mapped
  rw [Machine.set_eq_setFrame, Machine.phys_setFrame_of_ne htable, Machine.set_eq_setFrame,
    Machine.phys_setFrame_of_ne hne]

theorem Directories.sameTables_mapped {i : Nat} (hi : i < 1024 ∧ i ≠ 1022) (hpresent : present (m.pde i))
    (j entry flags : Nat) : SameTables dirs m (mapped m i j entry flags) := by
  have hlayout := hm.layout_current
  have hpde := fun k => mapped_pde flags hlayout hi hpresent j entry k
  have hsame := fun k => mapped_present flags hlayout hi hpresent j entry k
  have hphys : ∀ d ∈ dirs, d ≠ m.dir → (mapped m i j entry flags).phys d = m.phys d :=
    fun d hd hne => hm.mapped_phys hi hpresent j entry flags hd hne
  refine
    { dir := rfl
      active := rfl
      booted := hlayout.booted
      bits := fun _ _ hf => hf
      frame := ?_
      presence := ?_
      recursive := ?_
      absent := ?_ }
  · intro d hd k
    by_cases heq : d = m.dir
    · rw [heq]
      exact (hsame k).2
    · rw [hphys d hd heq]
  · intro d hd k
    by_cases heq : d = m.dir
    · rw [heq]
      exact (hsame k).1
    · rw [hphys d hd heq]
  · intro d hd
    by_cases heq : d = m.dir
    · rw [heq]
      exact (hpde 1022).trans (update_of_ne (by omega) _ _)
    · rw [hphys d hd heq]
  · intro d hd k habsent
    by_cases heq : d = m.dir
    · rw [heq] at habsent ⊢
      refine (hpde k).trans (update_of_ne ?_ _ _)
      rintro rfl
      exact habsent hpresent
    · rw [hphys d hd heq]

theorem Directories.sameTables_free {frames : List Nat} (hsame : SameTables dirs m m')
    (hfresh : FreshFrames m frames) :
    SameTables dirs m { m' with pmm := frames.foldl Pmm.pmmFreeBlock m'.pmm } := by
  have hfree : ∀ s : Pmm.State, Booted s →
      (∀ f, f < totalBlocks → Bitmap.test m.pmm.bitmap f = true →
        Bitmap.test s.bitmap f = true) →
      Booted (frames.foldl Pmm.pmmFreeBlock s) ∧
        ∀ f, f < totalBlocks → Bitmap.test m.pmm.bitmap f = true →
          Bitmap.test (frames.foldl Pmm.pmmFreeBlock s).bitmap f = true := by
    induction frames with
    | nil => exact fun s hbooted hbits => ⟨hbooted, hbits⟩
    | cons t frames ih =>
      intro s hbooted hbits
      obtain ⟨g, rfl, hg, hclear⟩ := hfresh t mem_cons_self
      have hframe : g * 4096 / Pmm.blockSize = g := Nat.mul_div_cancel g (by decide)
      have hstep : Pmm.pmmFreeBlock s (g * 4096) = s.release g := by
        unfold Pmm.pmmFreeBlock
        rw [hframe, if_neg (not_le.mpr hg)]
      have hbits' : ∀ f, f < totalBlocks → Bitmap.test m.pmm.bitmap f = true →
          Bitmap.test (s.release g).bitmap f = true := by
        intro f hf hset
        have hne : f ≠ g := by
          rintro rfl
          rw [hclear] at hset
          cases hset
        rw [Pmm.test_release, hbits f hf hset]
        simp [hne]
      rw [foldl_cons, hstep]
      refine ih (fun t ht => hfresh t (mem_cons_of_mem _ ht)) _
        { counted := hbooted.counted.release hg
          kernel := fun f hf => hbits' f (lt_trans hf (by decide))
            (hm.layout_current.booted.kernel f hf) } hbits'
  obtain ⟨hbooted, hbits⟩ := hfree m'.pmm hsame.booted hsame.bits
  exact
    { dir := hsame.dir
      active := hsame.active
      booted := hbooted
      bits := hbits
      frame := hsame.frame
      presence := hsame.presence
      recursive := hsame.recursive
      absent := hsame.absent }

theorem Directories.cloning_phys {k : Nat} (hc : Cloning m m' k) {d : Nat} (hd : d ∈ dirs) (i : Nat) :
    m'.phys d i = m.phys d i := by
  by_cases heq : d = m.dir
  · have hpde := hc.pde i
    unfold Machine.pde at hpde
    rw [hc.dir] at hpde
    rw [heq]
    exact hpde
  · have hset := (hm.layout d hd).dirTaken.2
    refine congrFun (hc.old d ?_ ?_) i
    · rintro ⟨-, hclear⟩
      rw [show Bitmap.test m.pmm.bitmap d = true from hset] at hclear
      cases hclear
    · rintro (heq' | ⟨k, hk, hp, hframe⟩)
      · exact heq heq'
      · by_cases hrec : k = 1022
        · rw [hrec, hm.layout_current.recursive_frame] at hframe
          exact heq hframe.symm
        · exact hm.outside m.dir hm.current d hd k hk hrec hp hframe

theorem Directories.sameTables_cloning {k : Nat} (hc : Cloning m m' k) : SameTables dirs m m' := by
  refine SameTables.of_phys_eq hc.dir hc.active hc.taken.booted ?_ ?_
  · exact fun f hf hset => (hc.taken.bits f hf).mpr (.inl hset)
  · exact fun d hd => funext fun i => hm.cloning_phys hc hd i

theorem Directories.layout_clone {d : Nat} (hd : Free m d) (hdrank : freeBelow m.pmm d = 0)
    (hc : Cloning m m' (framesBefore m 1024)) (hrec : m'.phys d 1022 = entryFor (d * 4096) 3)
    (hcloned : ∀ i, i < 1024 → i ≠ 1022 → EntryCloned m m' d i) :
    Layout { m' with dir := d } ∧ ∀ i, i < 1024 → i ≠ 1022 → present (m'.phys d i) →
      ∀ e ∈ d :: dirs, frameOf (m'.phys d i) ≠ e := by
  have hm₀ := hm.layout_current
  -- an entry of the new directory is that of the old one, or a table made of a free frame
  have hentry : ∀ i, i < 1024 → i ≠ 1022 →
      (¬ Deep m i ∧ m'.phys d i = m.pde i) ∨
        ∃ p, Deep m i ∧ m'.phys d i = clonedPde (p * 4096) (m.pde i) ∧ Free m p ∧
          freeBelow m.pmm p = framesBefore m i := by
    intro i hi hne
    have hcase := hcloned i hi hne
    unfold EntryCloned at hcase
    split at hcase
    · rename_i hdeep
      obtain ⟨p, hpde, hcopied⟩ := hcase
      exact .inr ⟨p, hdeep, hpde, hcopied.free, hcopied.rank⟩
    · rename_i hshared
      exact .inl ⟨hshared, hcase⟩
  have htaken : ∀ f, Free m f → freeBelow m.pmm f < framesBefore m 1024 →
      Bitmap.test m'.pmm.bitmap f = true := fun f hf hrank => (hc.taken.bits f hf.1).mpr (.inr hrank)
  have hrank : ∀ i, i < 1024 → Deep m i → framesBefore m i < framesBefore m 1024 := by
    intro i hi hdeep
    have hmono := framesBefore_mono m (Nat.succ_le_of_lt hi)
    rw [Nat.succ_eq_add_one, framesBefore_succ, if_pos hdeep] at hmono
    omega
  have hnot : ∀ {f g}, Free m f → Bitmap.test m.pmm.bitmap g = true → g ≠ f := by
    rintro f g hfree hset rfl
    rw [hfree.2] at hset
    cases hset
  have hpos := framesBefore_pos m
  have hplain : ∀ i, i < 1024 → i ≠ 1022 → present (m'.phys d i) →
      ∀ e ∈ d :: dirs, frameOf (m'.phys d i) ≠ e := by
    intro i hi hne hp e he
    obtain ⟨-, hpde⟩ | ⟨p, -, hpde, hp', hprank⟩ := hentry i hi hne
    · rw [hpde] at hp ⊢
      obtain rfl | he := mem_cons.mp he
      · exact hnot hd (hm₀.table i hi hne hp).2.2
      · exact hm.outside m.dir hm.current e he i hi hne hp
    · rw [hpde, frameOf_clonedPde]
      obtain rfl | he := mem_cons.mp he
      · rintro rfl
        have := hpos i
        omega
      · exact (hnot hp' (hm.layout e he).dirTaken.2).symm
  refine
    ⟨{ active := hc.active.trans hm₀.active
       recursive := hrec
       dirTaken := ⟨hd.1, htaken d hd (by rw [hdrank]; exact hpos 1024)⟩
       booted := hc.taken.booted
       low := ?_
       outside := fun i hi hne hp => hplain i hi hne hp d mem_cons_self
       table := ?_
       apart := ?_
       absent := ?_ }, hplain⟩
  · intro i hi
    change present (m'.phys d i)
    obtain ⟨-, hpde⟩ | ⟨p, -, hpde, -⟩ := hentry i (by omega) (by omega)
    · rw [hpde]
      exact hm₀.low i hi
    · rw [hpde]
      exact present_clonedPde _ _
  · intro i hi hne hp
    change present (m'.phys d i) at hp
    change kernelPages ≤ frameOf (m'.phys d i) ∧ frameOf (m'.phys d i) < totalBlocks ∧
      Bitmap.test m'.pmm.bitmap (frameOf (m'.phys d i)) = true
    obtain ⟨-, hpde⟩ | ⟨p, hdeep, hpde, hp', hprank⟩ := hentry i hi hne
    · rw [hpde] at hp ⊢
      obtain ⟨hlow, hhigh, hset⟩ := hm₀.table i hi hne hp
      exact ⟨hlow, hhigh, (hc.taken.bits _ hhigh).mpr (.inl hset)⟩
    · rw [hpde, frameOf_clonedPde]
      have hless := hrank i hi hdeep
      rw [← hprank] at hless
      exact ⟨hm₀.booted.kernelPages_le hp'.2, hp'.1, htaken p hp' hless⟩
  · intro i j hi hj hine hjne hip hjp heq
    change present (m'.phys d i) at hip
    change present (m'.phys d j) at hjp
    change frameOf (m'.phys d i) = frameOf (m'.phys d j) at heq
    obtain ⟨-, hpde⟩ | ⟨p, hdeep, hpde, hp, hprank⟩ := hentry i hi hine
    · obtain ⟨-, hpde'⟩ | ⟨q, -, hpde', hq, -⟩ := hentry j hj hjne
      · rw [hpde, hpde'] at heq
        rw [hpde] at hip
        rw [hpde'] at hjp
        exact hm₀.apart i j hi hj hine hjne hip hjp heq
      · rw [hpde, hpde', frameOf_clonedPde] at heq
        rw [hpde] at hip
        exact absurd heq (hnot hq (hm₀.table i hi hine hip).2.2)
    · obtain ⟨-, hpde'⟩ | ⟨q, hdeep', hpde', hq, hqrank⟩ := hentry j hj hjne
      · rw [hpde, hpde', frameOf_clonedPde] at heq
        rw [hpde'] at hjp
        exact absurd heq.symm (hnot hp (hm₀.table j hj hjne hjp).2.2)
      · -- the two tables are one frame, so the walk reached both entries at one count
        rw [hpde, hpde', frameOf_clonedPde, frameOf_clonedPde] at heq
        subst heq
        obtain hlt | heq | hlt := lt_trichotomy i j
        · have hmono := framesBefore_mono m (show i + 1 ≤ j from hlt)
          rw [framesBefore_succ, if_pos hdeep] at hmono
          omega
        · exact heq
        · have hmono := framesBefore_mono m (show j + 1 ≤ i from hlt)
          rw [framesBefore_succ, if_pos hdeep'] at hmono
          omega
  · intro i hi habsent
    change ¬ present (m'.phys d i) at habsent
    change m'.phys d i = 0
    have hne : i ≠ 1022 := by
      rintro rfl
      rw [hrec, present_entryFor] at habsent
      exact habsent rfl
    obtain ⟨-, hpde⟩ | ⟨p, -, hpde, -⟩ := hentry i hi hne
    · rw [hpde] at habsent ⊢
      exact hm₀.absent i hi habsent
    · rw [hpde] at habsent
      exact absurd (present_clonedPde _ _) habsent

theorem Directories.fork (hsafe : CopySafe m) {dst : Nat}
    (hclone : clonePageDirectory m (currentPageDir m) = some (dst, m')) :
    SameTables dirs m m' ∧ Directories m' (if dst = 0 then dirs else dst / 4096 :: dirs) := by
  obtain ⟨dst', m'', hrun, hfail, hdone⟩ := clonePageDirectory_spec hm.layout_current hsafe
  rw [hclone] at hrun
  cases hrun
  by_cases hzero : dst = 0
  · obtain ⟨-, m₁, k, frames, hc, hfresh, rfl⟩ := hfail hzero
    have hsame := hm.sameTables_free (hm.sameTables_cloning hc) hfresh
    rw [if_pos hzero]
    exact ⟨hsame, hm.keep hsame⟩
  · obtain ⟨d, rfl, hd, hdrank, hc, hrec, hcloned⟩ := hdone hzero
    have hsame := hm.sameTables_cloning hc
    have hkept := hm.keep hsame
    obtain ⟨hlayout, hplain⟩ := hm.layout_clone hd hdrank hc hrec hcloned
    rw [if_neg hzero, Nat.mul_div_cancel d (by decide)]
    refine ⟨hsame,
      { current := mem_cons_of_mem _ hkept.current
        layout := ?_
        outside := ?_ }⟩
    · intro e he
      obtain rfl | he := mem_cons.mp he
      · exact hlayout
      · exact hkept.layout e he
    · intro e he g hg i hi hne hp
      obtain rfl | he' := mem_cons.mp he
      · exact hplain i hi hne hp g hg
      · obtain rfl | hg' := mem_cons.mp hg
        · have hp' := (hsame.presence e he' i).mp hp
          rw [hsame.frame e he' i]
          exact (hm.layout e he').table_ne_of_clear hd.2 hi hne hp'
        · exact hkept.outside e he' g hg' i hi hne hp

end Operations

end JexOs.Paging
