import JexOs.Proof.Elf
import JexOs.Proof.PageMap
import Mathlib.Order.CompletePartialOrder

/-!
# Whole executables load

What the loader leaves of any image. Every page of a segment gets a frame of its own, so the bytes of a segment
stay as long as no later segment has a page in common with it and no page is taken from the kernel.
-/

namespace JexOs.Elf

open ByteMem (Mem byteOf load32)
open Paging Function
open Pmm (totalBlocks)

def Phdr.bytes (p : Phdr) : Set Nat := {a | p.vaddr ≤ a ∧ a < p.vaddr + p.memsz}

def Phdr.pages (p : Phdr) : Set Nat := {q | p.vaddr / 4096 ≤ q ∧ q < (p.vaddr + p.memsz + 4095) / 4096}

def segmentsFrom (elf : Mem) (h : Ehdr) (n i : Nat) : List Phdr :=
  ((List.range' i n).map fun i => phdrAt elf (word32 (h.phoff + i * h.phentsize))).filter
    fun p => p.type = ptLoad

def segments (elf : Mem) : List Phdr := segmentsFrom elf (ehdrAt elf) (ehdrAt elf).phnum 0

def imagePages (elf : Mem) : Set Nat := {q | ∃ p ∈ segments elf, q ∈ p.pages}

/-- The segments have no byte in common, lie in user space and have their bytes in the file. -/
structure WellFormed (elf : Mem) (size : Nat) : Prop where
  apart : (segments elf).Pairwise fun p p' => Disjoint p.bytes p'.bytes
  user : ∀ p ∈ segments elf, p.vaddr + p.memsz ≤ 0xC0000000
  file : ∀ p ∈ segments elf, p.offset + p.filesz ≤ size
  size : size ≤ 4294967296

def InMemory (elf : Mem) (m : Machine) (p : Phdr) : Prop :=
  ∀ k, k < p.memsz → loadByte m (p.vaddr + k) = some (if k < p.filesz then elf (p.offset + k) else 0)

/-- The identity pages that the loader works through, of the directory and of free frames, are in place and not in
`P`. -/
structure Reaches (m : Machine) (P : Set Nat) : Prop where
  dir : Intact m m.dir
  notDir : m.dir ∉ P
  tables : ∀ q ∈ P, ¬ present (m.pde (q / 1024)) → ∀ f, Free m f → Intact m f ∧ f ∉ P

structure Prepared (m : Machine) (P : Set Nat) : Prop extends Reaches m P where
  layout : Layout m
  user : ∀ q ∈ P, q < 0xC0000

structure Holds (m : Machine) (D : Set Nat) (frame : Nat → Nat) : Prop where
  table : ∀ q ∈ D, present (m.pde (q / 1024))
  page : ∀ q ∈ D, present (m.pte (q / 1024) (q % 1024)) ∧ frameOf (m.pte (q / 1024) (q % 1024)) = frame q
  plain : ∀ q ∈ D, ¬ Structural m (frame q)
  taken : ∀ q ∈ D, ¬ Free m (frame q)
  apart : Set.InjOn frame D

structure Entered (m : Machine) (q entry : Nat) (m' : Machine) : Prop where
  layout : Layout m'
  dir : m'.dir = m.dir
  free : ∀ g, Free m' g → Free m g
  keeps : ∀ i, present (m.pde i) → present (m'.pde i)
  table : present (m'.pde (q / 1024))
  page : m'.pte (q / 1024) (q % 1024) = entry
  others : ∀ q', q' < 0xC0000 → q' ≠ q → present (m.pde (q' / 1024)) → ¬ (Free m q' ∧ ¬ Free m' q') →
    m'.pte (q' / 1024) (q' % 1024) = m.pte (q' / 1024) (q' % 1024)
  structural : ∀ g, Structural m' g → Structural m g ∨ Free m g ∧ ¬ Free m' g
  grows : ∀ g, Structural m g → Structural m' g
  phys : ∀ g, ¬ Structural m' g → m'.phys g = m.phys g
  missing : ∀ g, Free m g → ¬ Free m' g → ¬ present (m.pde (q / 1024))

section Enter

variable {m m' : Machine} {q phys flags : Nat} (hm : Layout m) (hq : q < 0xC0000)

include hm hq

theorem mapped_entered (hpresent : present (m.pde (q / 1024))) :
    Entered m q (entryFor phys flags) (mapped m (q / 1024) (q % 1024) (entryFor phys flags) flags) := by
  have hi : q / 1024 < 1024 ∧ q / 1024 ≠ 1022 := by omega
  refine
    { layout := mapped_layout flags hm hi hpresent _ _
      dir := rfl
      free := fun g hg => hg
      keeps := fun i hip => (mapped_present flags hm hi hpresent _ _ i).1.mpr hip
      table := (mapped_present flags hm hi hpresent _ _ _).1.mpr hpresent
      page := ?_
      others := fun q' hq' hne hkp _ => ?_
      structural := fun g hg => .inl ((mapped_structural flags hm hi hpresent _ _ g).mp hg)
      grows := fun g hg => (mapped_structural flags hm hi hpresent _ _ g).mpr hg
      phys := fun g hg => ?_
      missing := fun g hg hg' => absurd hg hg' }
  · rw [mapped_pte flags hm hi hpresent _ _ hi.1 hi.2 hpresent, if_pos ⟨rfl, rfl⟩]
  · rw [mapped_pte flags hm hi hpresent _ _ (by omega) (by omega) hkp, if_neg fun h => hne (by omega)]
  · rw [mapped_structural flags hm hi hpresent] at hg
    have hdir : g ≠ m.dir := fun heq => hg (.inl heq)
    have htable : g ≠ frameOf (m.pde (q / 1024)) := fun heq => hg (.inr ⟨_, hi.1, hpresent, heq.symm⟩)
    unfold mapped
    rw [Machine.set_eq_setFrame, Machine.phys_setFrame_of_ne htable, Machine.set_eq_setFrame,
      Machine.phys_setFrame_of_ne hdir]

theorem newlyMapped_entered {f : Nat} (hf : f < totalBlocks) (hclear : Bitmap.test m.pmm.bitmap f = false)
    (hodd : present flags) (habsent : ¬ present (m.pde (q / 1024))) :
    Entered m q (entryFor phys flags) (newlyMapped m f (q / 1024) (q % 1024) (entryFor phys flags) flags) := by
  have htotal := Pmm.totalBlocks_eq
  have hi : q * 4096 / 4194304 < 1024 ∧ q * 4096 / 4194304 ≠ 1022 := by omega
  have htable : q * 4096 / 4194304 = q / 1024 := by omega
  have hentry : q * 4096 / 4096 % 1024 = q % 1024 := by omega
  have hlayout := newlyMapped_layout phys hm hf hclear hodd hi
  have hpte := fun {k} hk hkp l => newlyMapped_pte phys hm hf hclear hodd hi (k := k) hk hkp l
  have htaken := newlyMapped_taken hf hclear (q / 1024) (q % 1024) (entryFor phys flags) flags
  have hpde := newlyMapped_pde hm hf hclear (q / 1024) (q % 1024) (entryFor phys flags) flags
  rw [htable, hentry] at hlayout
  simp only [htable, hentry] at hpte
  have hself : present (Function.update m.pde (q / 1024) (entryFor (f * 4096) flags) (q / 1024)) := by
    rw [update_self, present_entryFor]
    exact hodd
  have hkept : ∀ i, present (m.pde i) →
      Function.update m.pde (q / 1024) (entryFor (f * 4096) flags) i = m.pde i := by
    intro i hip
    refine update_of_ne ?_ _ _
    rintro rfl
    exact habsent hip
  have hfree : Free m f ∧ ¬ Free (newlyMapped m f (q / 1024) (q % 1024) (entryFor phys flags) flags) f := by
    have hgone := (htaken (f * 4096)).mpr (Nat.mul_div_cancel f (by decide))
    unfold TakenBetween at hgone
    rwa [Nat.mul_div_cancel f (by decide)] at hgone
  have hbits : ∀ g, Bitmap.test
      (newlyMapped m f (q / 1024) (q % 1024) (entryFor phys flags) flags).pmm.bitmap g =
      (decide (g = f) || Bitmap.test m.pmm.bitmap g) := fun g => Bitmap.test_set m.pmm.bitmap f g
  refine
    { layout := hlayout
      dir := rfl
      free := fun g hg => ⟨hg.1, ?_⟩
      keeps := fun i hip => by rwa [hpde, hkept i hip]
      table := by rwa [hpde]
      page := ?_
      others := fun q' hq' hne hkp hquiet => ?_
      structural := fun g hg => ?_
      grows := fun g hg => ?_
      phys := fun g hg => ?_
      missing := fun _ _ _ => habsent }
  · have hbit := hg.2
    rw [hbits] at hbit
    exact (Bool.or_eq_false_iff.mp hbit).2
  · rw [hpte ⟨by omega, by omega⟩ hself, if_pos ⟨rfl, rfl⟩]
  · have hother : q' / 1024 ≠ q / 1024 := fun heq => habsent (heq ▸ hkp)
    have hframe : ¬ (q' / 1024 = f / 1024 ∧ q' % 1024 = f % 1024) := by
      rintro ⟨hdiv, hmod⟩
      have heq : q' = f := by omega
      exact hquiet (heq ▸ hfree)
    rw [hpte ⟨by omega, by omega⟩ (by rwa [hkept _ hkp]), if_neg fun h => hother h.1,
      withTable_pte hm hf hclear ⟨by omega, by omega⟩ hother hkp, if_neg hframe]
  · obtain rfl | ⟨k, hk, hkp, hgk⟩ := hg
    · exact .inl (.inl rfl)
    · rw [hpde] at hkp hgk
      by_cases heq : k = q / 1024
      · subst heq
        rw [update_self, frameOf_entryFor_frame] at hgk
        exact .inr (hgk ▸ hfree)
      · rw [update_of_ne heq] at hkp hgk
        exact .inl (.inr ⟨k, hk, hkp, hgk⟩)
  · obtain rfl | ⟨k, hk, hkp, rfl⟩ := hg
    · exact .inl rfl
    · exact .inr ⟨k, hk, by rwa [hpde, hkept k hkp], by rw [hpde, hkept k hkp]⟩
  · have hdir : g ≠ m.dir := fun heq => hg (.inl heq)
    have hnew : g ≠ f := by
      rintro rfl
      refine hg (.inr ⟨q / 1024, by omega, by rwa [hpde], ?_⟩)
      rw [hpde, update_self, frameOf_entryFor_frame]
    have hlow := hm.low (f / 1024) (by omega)
    have hidentity : g ≠ frameOf (m.pde (f / 1024)) := by
      rintro rfl
      refine hg (.inr ⟨f / 1024, by omega, ?_, ?_⟩)
      · rwa [hpde, hkept _ hlow]
      · rw [hpde, hkept _ hlow]
    unfold newlyMapped withTable Paging.unmapIdentity
    rw [Machine.set_eq_setFrame, Machine.phys_setFrame_of_ne hnew, Machine.set_eq_setFrame,
      Machine.phys_setFrame_of_ne hdir, Machine.set_eq_setFrame, Machine.phys_setFrame_of_ne, Paging.fill,
      Machine.phys_setFrame_of_ne hnew]
    rwa [hm.fill_pde hclear]

end Enter

section Kept

variable {m m' : Machine} {P D : Set Nat} {frame : Nat → Nat} {q f entry flags : Nat}

theorem holds_empty (m : Machine) : Holds m ∅ id :=
  { table := nofun
    page := nofun
    plain := nofun
    taken := nofun
    apart := Set.injOn_empty id }

theorem Prepared.markUsed (h : Prepared m P) (hf : f < totalBlocks)
    (hclear : Bitmap.test m.pmm.bitmap f = false) : Prepared { m with pmm := m.pmm.markUsed f } P := by
  have hbits : ∀ g, Bitmap.test (m.pmm.markUsed f).bitmap g = (decide (g = f) || Bitmap.test m.pmm.bitmap g) :=
    fun g => Bitmap.test_set m.pmm.bitmap f g
  refine
    { dir := ⟨h.dir.range, h.dir.table, h.dir.page, h.dir.frame⟩
      notDir := h.notDir
      tables := fun q hq habsent g hg => ?_
      layout := h.layout.of_pde_eq rfl rfl (h.layout.booted.markUsed hf hclear) (fun g hg => ?_) fun _ => rfl
      user := h.user }
  · have hfree : Free m g := by
      refine ⟨hg.1, ?_⟩
      have hbit := hg.2
      rw [hbits] at hbit
      exact (Bool.or_eq_false_iff.mp hbit).2
    obtain ⟨hintact, hout⟩ := h.tables q hq habsent g hfree
    exact ⟨⟨hintact.range, hintact.table, hintact.page, hintact.frame⟩, hout⟩
  · rw [hbits, hg, Bool.or_true]

theorem Holds.markUsed (h : Holds m D frame) (f : Nat) : Holds { m with pmm := m.pmm.markUsed f } D frame :=
  { table := h.table
    page := h.page
    plain := h.plain
    taken := fun q hq hfree => by
      refine h.taken q hq ⟨hfree.1, ?_⟩
      have hbit := hfree.2
      rw [show Bitmap.test (m.pmm.markUsed f).bitmap (frame q) =
        (decide (frame q = f) || Bitmap.test m.pmm.bitmap (frame q)) from Bitmap.test_set
          m.pmm.bitmap f _] at hbit
      exact (Bool.or_eq_false_iff.mp hbit).2
    apart := h.apart }

theorem Entered.intact (he : Entered m q entry m') (hf : f < 32768) (hne : f ≠ q)
    (hquiet : ¬ (Free m f ∧ ¬ Free m' f)) (hintact : Intact m f) : Intact m' f := by
  have hpte := he.others f (by omega) hne hintact.table hquiet
  exact
    { range := hintact.range
      table := he.keeps _ hintact.table
      page := by rw [hpte]; exact hintact.page
      frame := by rw [hpte]; exact hintact.frame }

theorem Entered.prepared (he : Entered m q entry m') (h : Prepared m P) (hq : q ∈ P) : Prepared m' P := by
  have htotal := Pmm.totalBlocks_eq
  refine
    { dir := ?_
      notDir := he.dir ▸ h.notDir
      tables := fun q' hq' habsent g hg => ?_
      layout := he.layout
      user := h.user }
  · rw [he.dir]
    refine he.intact (htotal ▸ h.layout.dirTaken.1) (fun heq => h.notDir (heq ▸ hq)) (fun htaken => ?_) h.dir
    rw [Free, h.layout.dirTaken.2] at htaken
    exact absurd htaken.1.2 (by decide)
  · obtain ⟨hintact, hout⟩ := h.tables q' hq' (fun hp => habsent (he.keeps _ hp)) g (he.free g hg)
    exact ⟨he.intact (htotal ▸ hg.1) (fun heq => hout (heq ▸ hq)) (fun htaken => htaken.2 hg) hintact, hout⟩

theorem Entered.holds (he : Entered m q (entryFor (f * 4096) flags) m') (h : Holds m D frame)
    (hprepared : Prepared m P)
    (hD : D ⊆ P) (hq : q ∈ P) (hnew : q ∉ D) (hodd : flags % 2 = 1) (hplain : ¬ Structural m f)
    (hfree : ¬ Free m f) (hunused : ∀ q' ∈ D, frame q' ≠ f) :
    Holds m' (insert q D) (Function.update frame q f) := by
  have hother : ∀ q' ∈ D, q' ≠ q := by
    rintro q' hq' rfl
    exact hnew hq'
  have hkept : ∀ q' ∈ D, m'.pte (q' / 1024) (q' % 1024) = m.pte (q' / 1024) (q' % 1024) := by
    intro q' hq'
    refine he.others q' (hprepared.user q' (hD hq')) (hother q' hq') (h.table q' hq') fun htaken => ?_
    exact (hprepared.tables q hq (he.missing q' htaken.1 htaken.2) q' htaken.1).2 (hD hq')
  have hframe : ∀ q' ∈ D, Function.update frame q f q' = frame q' := fun q' hq' =>
    update_of_ne (hother q' hq') _ _
  have hstays : ∀ g, ¬ Structural m g → ¬ Free m g → ¬ Structural m' g := fun g hg hg' hs =>
    (he.structural g hs).elim hg fun htaken => hg' htaken.1
  refine
    { table := Set.forall_mem_insert.mpr ⟨he.table, fun q' hq' => he.keeps _ (h.table q' hq')⟩
      page := Set.forall_mem_insert.mpr ⟨?_, fun q' hq' => ?_⟩
      plain := Set.forall_mem_insert.mpr ⟨?_, fun q' hq' => ?_⟩
      taken := Set.forall_mem_insert.mpr ⟨?_, fun q' hq' => ?_⟩
      apart := (Set.injOn_insert hnew).mpr ⟨?_, ?_⟩ }
  · rw [he.page, update_self, present_entryFor, frameOf_entryFor_frame]
    exact ⟨hodd, rfl⟩
  · rw [hkept q' hq', hframe q' hq']
    exact h.page q' hq'
  · rw [update_self]
    exact hstays f hplain hfree
  · rw [hframe q' hq']
    exact hstays _ (h.plain q' hq') (h.taken q' hq')
  · rw [update_self]
    exact fun hg => hfree (he.free f hg)
  · rw [hframe q' hq']
    exact fun hg => h.taken q' hq' (he.free _ hg)
  · exact (Set.EqOn.injOn_iff fun q' hq' => hframe q' hq').mpr h.apart
  · rintro ⟨q', hq', heq⟩
    rw [hframe q' hq', update_self] at heq
    exact hunused q' hq' heq

end Kept

section Bytes

variable {m m' : Machine} {P D : Set Nat} {frame : Nat → Nat} {va : Nat}

variable (h : Holds m D frame)

include h

theorem Holds.translate (hprepared : Prepared m P) (hD : D ⊆ P)
    (hva : va / 4096 ∈ D) : m.translate va = some (frame (va / 4096), va / 4 % 1024) := by
  have hlow := hprepared.user _ (hD hva)
  have htable : va / 4194304 % 1024 = va / 4096 / 1024 := by omega
  rw [translate_eq, if_pos hprepared.layout.active, htable, if_pos (h.table _ hva), if_pos (h.page _ hva).1,
    (h.page _ hva).2]

theorem Holds.byte (hprepared : Prepared m P) (hD : D ⊆ P) (hva : va / 4096 ∈ D) :
    loadByte m va = some (byteOf (m.phys (frame (va / 4096)) (va / 4 % 1024)) (va % 4)) :=
  loadByte_of_translate (h.translate hprepared hD hva)

omit h in
theorem Prepared.of_sameTables (h : Prepared m P) (hsame : SameTables m m') (hpmm : m'.pmm = m.pmm) :
    Prepared m' P := by
  have hfree : ∀ g, Free m' g → Free m g := fun g hg => by rwa [Free, hpmm] at hg
  have hintact : ∀ g, Intact m g → Intact m' g := fun g hg => by
    have hlow := hg.range
    have hpte := hsame.pte (i := g / 1024) (by omega) hg.table (g % 1024)
    exact
      { range := hg.range
        table := by rw [hsame.pde]; exact hg.table
        page := by rw [hpte]; exact hg.page
        frame := by rw [hpte]; exact hg.frame }
  exact
    { dir := by rw [hsame.dir]; exact hintact _ h.dir
      notDir := by rw [hsame.dir]; exact h.notDir
      tables := fun q hq habsent g hg => by
        rw [hsame.pde] at habsent
        obtain ⟨hg', hout⟩ := h.tables q hq habsent g (hfree g hg)
        exact ⟨hintact g hg', hout⟩
      layout := h.layout.of_pde_eq hsame.dir hsame.active (hpmm ▸ h.layout.booted) (fun g hg => by rwa [hpmm])
        hsame.pde
      user := h.user }

theorem Holds.of_sameTables (hprepared : Prepared m P) (hD : D ⊆ P)
    (hsame : SameTables m m') (hpmm : m'.pmm = m.pmm) : Holds m' D frame := by
  have hpte : ∀ q ∈ D, m'.pte (q / 1024) (q % 1024) = m.pte (q / 1024) (q % 1024) := fun q hq => by
    have hlow := hprepared.user q (hD hq)
    exact hsame.pte (by omega) (h.table q hq) _
  exact
    { table := fun q hq => by rw [hsame.pde]; exact h.table q hq
      page := fun q hq => by rw [hpte q hq]; exact h.page q hq
      plain := fun q hq hs => h.plain q hq ((hsame.structural _).mp hs)
      taken := fun q hq hf => h.taken q hq (by rwa [Free, hpmm] at hf)
      apart := h.apart }

theorem Holds.storeByte (hprepared : Prepared m P) (hD : D ⊆ P) (hva : va / 4096 ∈ D) (b : UInt8) :
    ∃ m', storeByte m va b = some m' ∧ SameTables m m' ∧ m'.pmm = m.pmm ∧
      (∀ g, (∀ q ∈ D, frame q ≠ g) → m'.phys g = m.phys g) ∧
      ∀ va', va' / 4096 ∈ D → loadByte m' va' = if va' = va then some b else loadByte m va' := by
  have htranslate := h.translate hprepared hD hva
  have hsame := SameTables.set (h.plain _ hva) (va / 4 % 1024)
    (setByte (m.phys (frame (va / 4096)) (va / 4 % 1024)) (va % 4) b.toNat)
  refine ⟨_, by rw [Elf.storeByte, htranslate]; rfl, hsame, rfl,
    fun g hg => Machine.phys_setFrame_of_ne (Ne.symm (hg _ hva)), fun va' hva' => ?_⟩
  have htranslate' := h.translate hprepared hD hva'
  rw [loadByte_of_translate ((hsame.translate va').trans htranslate'), loadByte_of_translate htranslate']
  dsimp only
  by_cases hpage : va' / 4096 = va / 4096
  · by_cases hword : va' / 4 % 1024 = va / 4 % 1024
    · -- the same word: the byte, or another of its four
      rw [hpage, hword, Machine.set_eq_setFrame, Machine.phys_setFrame_same, update_self,
        byteOf_setByte (Nat.mod_lt _ (by decide)) (Nat.mod_lt _ (by decide)) b.toNat_lt]
      by_cases heq : va' = va
      · rw [if_pos heq, if_pos (by rw [heq]), UInt8.ofNat_toNat]
      · rw [if_neg heq, if_neg (by omega)]
    · have hne : va' ≠ va := fun heq => hword (by rw [heq])
      rw [hpage, Machine.set_eq_setFrame, Machine.phys_setFrame_same, update_of_ne hword, if_neg hne]
  · have hne : va' ≠ va := fun heq => hpage (by rw [heq])
    have hframe : frame (va' / 4096) ≠ frame (va / 4096) := fun heq => hpage (h.apart hva' hva heq)
    rw [Machine.set_eq_setFrame, Machine.phys_setFrame_of_ne hframe, if_neg hne]

theorem Holds.copyBytes (hprepared : Prepared m P) (hD : D ⊆ P) {dst n : Nat}
    (hrange : ∀ k < n, (dst + k) / 4096 ∈ D) (src : Mem) :
    ∃ m', copyBytes m dst n src = some m' ∧ SameTables m m' ∧ m'.pmm = m.pmm ∧
      (∀ g, (∀ q ∈ D, frame q ≠ g) → m'.phys g = m.phys g) ∧ ∀ va, va / 4096 ∈ D →
        loadByte m' va = if dst ≤ va ∧ va < dst + n then some (src (va - dst)) else loadByte m va := by
  induction n with
  | zero =>
    refine ⟨m, rfl, SameTables.refl m, rfl, fun _ _ => rfl, fun va _ => ?_⟩
    rw [if_neg (by omega)]
  | succ n ih =>
    obtain ⟨m₁, hrun, hsame, hpmm, hrest, hbytes⟩ := ih fun k hk => hrange k (by omega)
    have hlast := hrange n (Nat.lt_succ_self n)
    have hwrap : word32 (dst + n) = dst + n := by
      have hlow := hprepared.user _ (hD hlast)
      exact Nat.mod_eq_of_lt (by omega)
    obtain ⟨m₂, hstore, hsame', hpmm', hrest', hload⟩ := (h.of_sameTables hprepared hD hsame hpmm).storeByte
      (hprepared.of_sameTables hsame hpmm) hD hlast (src n)
    refine ⟨m₂, ?_, hsame.trans hsame', hpmm'.trans hpmm,
      fun g hg => (hrest' g hg).trans (hrest g hg), fun va hva => ?_⟩
    · unfold Elf.copyBytes at hrun ⊢
      rw [List.range_succ, List.foldlM_append, hrun]
      simp only [Option.bind_eq_bind, Option.bind_some, List.foldlM_cons, List.foldlM_nil, hwrap, hstore]
      rfl
    · rw [hload va hva, hbytes va hva]
      by_cases heq : va = dst + n
      · rw [if_pos heq, if_pos (by omega), heq, Nat.add_sub_cancel_left]
      · rw [if_neg heq]
        by_cases hin : dst ≤ va ∧ va < dst + n
        · rw [if_pos hin, if_pos (by omega)]
        · rw [if_neg hin, if_neg (by omega)]

end Bytes

section Load

variable {m m' : Machine} {P D : Set Nat} {frame : Nat → Nat} {q f flags : Nat}

theorem mapPage_entered {r : Int} (h : Prepared m P) (hq : q ∈ P)
    (hrun : mapPage m (f * 4096) (q * 4096) flags = some (r, m')) (hr : ¬ r < 0) :
    Entered m q (entryFor (f * 4096) flags) m' := by
  have hlow := h.user q hq
  have htable : q * 4096 / 4194304 = q / 1024 := by omega
  have hentry : q * 4096 / 4096 % 1024 = q % 1024 := by omega
  have hcases := mapPage_cases _ _ h.layout h.dir (by omega)
    (fun habsent g hg hclear _ => (h.tables q hq (htable ▸ habsent) g ⟨hg, hclear⟩).1) hrun
  rw [htable, hentry] at hcases
  obtain ⟨hpresent, rfl⟩ | ⟨-, rfl, -⟩ | ⟨habsent, hodd, g, hg, hclear, rfl⟩ := hcases
  · exact mapped_entered h.layout hlow hpresent
  · exact absurd (by decide : enomem < 0) hr
  · exact newlyMapped_entered h.layout hlow hg hclear hodd habsent

theorem mapSegment_holds {n : Nat} (h : Prepared m P) (hholds : Holds m D frame) (hD : D ⊆ P)
    (hpages : ∀ l < n, q + l ∈ P ∧ q + l ∉ D) (hodd : flags % 2 = 1)
    (hrun : mapSegment flags n (q * 4096) m = some (true, m')) :
    ∃ frame', Prepared m' P ∧ Holds m' (D ∪ {q' | q ≤ q' ∧ q' < q + n}) frame' ∧
      (∀ g, Structural m g → Structural m' g) ∧ (∀ g, ¬ Structural m' g → m'.phys g = m.phys g) ∧
      ∀ va, va / 4096 ∈ D → loadByte m' va = loadByte m va := by
  induction n generalizing m q D frame with
  | zero =>
    cases hrun
    have hnone : D ∪ {q' | q ≤ q' ∧ q' < q + 0} = D := by
      ext q'
      simp
    exact ⟨frame, h, by rwa [hnone], fun _ hg => hg, fun _ _ => rfl, fun va _ => rfl⟩
  | succ n ih =>
    obtain ⟨hq, hnew⟩ := hpages 0 (Nat.succ_pos n)
    rw [Nat.add_zero] at hq hnew
    obtain ⟨-, -, hfull⟩ | ⟨f, hf, hclear, -, -, halloc⟩ := Pmm.pmmAllocBlock_cases h.layout.booted
    · rw [mapSegment, allocBlock, hfull] at hrun
      simp at hrun
    have hpos : ¬ f * 4096 = 0 := by
      have hkernel : Pmm.kernelPages = 512 := by decide
      have hbound := h.layout.booted.kernelPages_le hclear
      omega
    have halloc' : Pmm.pmmAllocBlock m.pmm = (f * 4096, m.pmm.markUsed f) := halloc
    rw [mapSegment, allocBlock, halloc'] at hrun
    simp only [if_neg hpos, Option.bind_eq_bind] at hrun
    obtain ⟨⟨r, m₁⟩, hmap, hrest⟩ := Option.bind_eq_some_iff.mp hrun
    by_cases hr : r < 0
    · rw [if_pos hr] at hrest
      cases hrest
    rw [if_neg hr, show q * 4096 + 4096 = (q + 1) * 4096 by omega] at hrest
    have hmarked := h.markUsed hf hclear
    have hentered := mapPage_entered hmarked hq hmap hr
    have hfree : Free m f := ⟨hf, hclear⟩
    have htaken : ¬ Free { m with pmm := m.pmm.markUsed f } f := fun hg => by
      have hbit := hg.2
      rw [show Bitmap.test (m.pmm.markUsed f).bitmap f = (decide (f = f) || Bitmap.test m.pmm.bitmap f) from
        Bitmap.test_set m.pmm.bitmap f f] at hbit
      simp at hbit
    have hholds₁ := hentered.holds (hholds.markUsed f) hmarked hD hq hnew hodd
      (h.layout.not_structural_of_clear hclear) htaken
      fun q' hq' heq => hholds.taken q' hq' (heq ▸ hfree)
    have hinsert : insert q D ⊆ P := Set.insert_subset hq hD
    have hrestPages : ∀ l < n, q + 1 + l ∈ P ∧ q + 1 + l ∉ insert q D := by
      intro l hl
      obtain ⟨hl', hout⟩ := hpages (l + 1) (by omega)
      rw [show q + (l + 1) = q + 1 + l by omega] at hl' hout
      refine ⟨hl', fun hmem => ?_⟩
      obtain heq | hmem := Set.mem_insert_iff.mp hmem
      · omega
      · exact hout hmem
    obtain ⟨frame', hprepared', hholds', hgrows, hphys, hbytes⟩ :=
      ih (hentered.prepared hmarked hq) hholds₁ hinsert hrestPages hrest
    refine ⟨frame', hprepared', ?_, fun g hg => hgrows g (hentered.grows g hg),
      fun g hg => (hphys g hg).trans (hentered.phys g fun hs => hg (hgrows g hs)), fun va hva => ?_⟩
    · have hunion : D ∪ {q' | q ≤ q' ∧ q' < q + (n + 1)} =
        insert q D ∪ {q' | q + 1 ≤ q' ∧ q' < q + 1 + n} := by
        ext q'
        have hrange : q ≤ q' ∧ q' < q + (n + 1) ↔ q' = q ∨ q + 1 ≤ q' ∧ q' < q + 1 + n := by omega
        simp only [Set.mem_union, Set.mem_insert_iff, Set.mem_ofPred_eq, hrange]
        rw [or_assoc, or_left_comm]
      rwa [hunion]
    · have hin : va / 4096 ∈ insert q D := Set.mem_insert_of_mem q hva
      have hother : va / 4096 ≠ q := fun heq => hnew (heq ▸ hva)
      have hsame : m₁.phys (frame (va / 4096)) = m.phys (frame (va / 4096)) := by
        refine hentered.phys _ fun hs => ?_
        refine hholds₁.plain _ hin ?_
        rwa [update_of_ne hother]
      rw [hbytes va hin, hholds₁.byte (hentered.prepared hmarked hq) hinsert hin, hholds.byte h hD hva,
        update_of_ne hother, hsame]

theorem phdrFlagsToPte_odd (flags : Nat) : phdrFlagsToPte flags % 2 = 1 := by
  unfold phdrFlagsToPte
  split <;> split <;> decide

structure Filled (elf : Mem) (p : Phdr) (D : Set Nat) (frame : Nat → Nat) (m m' : Machine) : Prop where
  same : SameTables m m'
  pmm : m'.pmm = m.pmm
  bytes : ∀ va, va / 4096 ∈ D → loadByte m' va =
    if p.vaddr ≤ va ∧ va < p.vaddr + p.memsz then
      some (if va - p.vaddr < p.filesz then elf (p.offset + (va - p.vaddr)) else 0)
    else loadByte m va
  phys : ∀ g, (∀ q ∈ D, frame q ≠ g) → m'.phys g = m.phys g

variable {elf : Mem}

theorem loadSegment_filled {p : Phdr} (h : Prepared m P) (hholds : Holds m D frame) (hD : D ⊆ P)
    (hpages : p.pages ⊆ P) (hnew : Disjoint D p.pages) (huser : p.vaddr + p.memsz ≤ 0xC0000000)
    (hfile : p.offset + p.filesz ≤ 4294967296) (hrun : loadSegment elf p m = some (true, m')) :
    ∃ m₁ frame', Prepared m₁ P ∧ Holds m₁ (D ∪ p.pages) frame' ∧
      (∀ g, ¬ Structural m₁ g → m₁.phys g = m.phys g) ∧
      (∀ va, va / 4096 ∈ D → loadByte m₁ va = loadByte m va) ∧
      Filled elf p (D ∪ p.pages) frame' m₁ m' := by
  by_cases hsizes : p.filesz > p.memsz
  · rw [loadSegment, if_pos hsizes] at hrun
    cases hrun
  have hend : word32 (p.vaddr + p.memsz + 4095) = p.vaddr + p.memsz + 4095 := Nat.mod_eq_of_lt (by omega)
  have hcount : ((p.vaddr + p.memsz + 4095) / 4096 * 4096 - p.vaddr / 4096 * 4096) / 4096 =
      (p.vaddr + p.memsz + 4095) / 4096 - p.vaddr / 4096 := by omega
  rw [loadSegment, if_neg hsizes] at hrun
  dsimp only at hrun
  rw [hend, hcount, Option.bind_eq_bind] at hrun
  obtain ⟨⟨done, m₁⟩, hmap, hrest⟩ := Option.bind_eq_some_iff.mp hrun
  cases done with
  | false => cases hrest
  | true =>
    have hmem : ∀ l < (p.vaddr + p.memsz + 4095) / 4096 - p.vaddr / 4096, p.vaddr / 4096 + l ∈ p.pages :=
      fun l hl => ⟨by omega, by omega⟩
    obtain ⟨frame', hprepared, hholds', -, hphys, hbytes⟩ := mapSegment_holds h hholds hD
      (fun l hl => ⟨hpages (hmem l hl), fun hin => Set.disjoint_left.mp hnew hin (hmem l hl)⟩)
      (phdrFlagsToPte_odd p.flags) hmap
    have hunion : {q' | p.vaddr / 4096 ≤ q' ∧
        q' < p.vaddr / 4096 + ((p.vaddr + p.memsz + 4095) / 4096 - p.vaddr / 4096)} = p.pages := by
      ext q'
      unfold Phdr.pages
      simp only [Set.mem_ofPred_eq]
      omega
    rw [hunion] at hholds'
    have hin : D ∪ p.pages ⊆ P := Set.union_subset hD hpages
    have hown : ∀ k < p.memsz, (p.vaddr + k) / 4096 ∈ D ∪ p.pages := fun k hk => .inr ⟨by omega, by omega⟩
    obtain ⟨m₂, hcopy, hsame, hpmm, hothers, hload⟩ := hholds'.copyBytes hprepared hin (n := p.filesz)
      (fun k hk => hown k (by omega)) fun k => elf (word32 (p.offset + k))
    have hprepared₂ := hprepared.of_sameTables hsame hpmm
    have hholds₂ := hholds'.of_sameTables hprepared hin hsame hpmm
    have hzeros : ∀ k < p.memsz - p.filesz, (p.vaddr + p.filesz + k) / 4096 ∈ D ∪ p.pages := fun k hk => by
      rw [Nat.add_assoc]
      exact hown _ (by omega)
    obtain ⟨m₃, hzero, hsame', hpmm', hothers', hload'⟩ := hholds₂.copyBytes hprepared₂ hin hzeros fun _ => 0
    simp only [Bool.not_true, Bool.false_eq_true, if_false, hcopy, hzero, Option.bind_eq_bind,
      Option.bind_some,
      Option.some.injEq, Prod.mk.injEq, true_and] at hrest
    subst hrest
    refine ⟨m₁, frame', hprepared, hholds', hphys, hbytes,
      { same := hsame.trans hsame'
        pmm := hpmm'.trans hpmm
        bytes := fun va hva => ?_
        phys := fun g hg => (hothers' g hg).trans (hothers g hg) }⟩
    rw [hload' va hva, hload va hva]
    by_cases hrange : p.vaddr ≤ va ∧ va < p.vaddr + p.memsz
    · rw [if_pos hrange]
      by_cases hfilled : va - p.vaddr < p.filesz
      · rw [if_neg (by omega), if_pos (by omega), if_pos hfilled, word32, Nat.mod_eq_of_lt (by omega)]
      · rw [if_pos (by omega), if_neg hfilled]
    · rw [if_neg (by omega), if_neg (by omega), if_neg hrange]

theorem loadSegment_holds {p : Phdr} (h : Prepared m P) (hholds : Holds m D frame) (hD : D ⊆ P)
    (hpages : p.pages ⊆ P) (hnew : Disjoint D p.pages) (huser : p.vaddr + p.memsz ≤ 0xC0000000)
    (hfile : p.offset + p.filesz ≤ 4294967296) (hrun : loadSegment elf p m = some (true, m')) :
    ∃ frame', Prepared m' P ∧ Holds m' (D ∪ p.pages) frame' ∧ InMemory elf m' p ∧
      ∀ va, va / 4096 ∈ D → loadByte m' va = loadByte m va := by
  obtain ⟨m₁, frame', hprepared, hholds', -, hkeep, hfilled⟩ :=
    loadSegment_filled h hholds hD hpages hnew huser hfile hrun
  refine ⟨frame', hprepared.of_sameTables hfilled.same hfilled.pmm,
    hholds'.of_sameTables hprepared (Set.union_subset hD hpages) hfilled.same hfilled.pmm,
    fun k hk => ?_, fun va hva => ?_⟩
  · rw [hfilled.bytes _ (.inr ⟨by omega, by omega⟩), if_pos (by omega), Nat.add_sub_cancel_left]
  · have hout : ¬ va / 4096 ∈ p.pages := Set.disjoint_left.mp hnew hva
    have hapart : ¬ (p.vaddr ≤ va ∧ va < p.vaddr + p.memsz) := fun hrange => hout ⟨by omega, by omega⟩
    rw [hfilled.bytes _ (.inl hva), if_neg hapart, hkeep va hva]

theorem segmentsFrom_succ (elf : Mem) (h : Ehdr) (n i : Nat) : segmentsFrom elf h (n + 1) i =
      (if (phdrAt elf (word32 (h.phoff + i * h.phentsize))).type = ptLoad then
        [phdrAt elf (word32 (h.phoff + i * h.phentsize))] else []) ++ segmentsFrom elf h n (i + 1) := by
  unfold segmentsFrom
  rw [List.range'_succ, List.map_cons, List.filter_cons]
  split <;> simp_all

theorem loadSegments_holds {h : Ehdr} {n i : Nat} (hprepared : Prepared m P) (hholds : Holds m D frame)
    (hD : D ⊆ P) (hpages : ∀ p ∈ segmentsFrom elf h n i, p.pages ⊆ P ∧ Disjoint D p.pages)
    (hapart : (segmentsFrom elf h n i).Pairwise fun p p' => Disjoint p.pages p'.pages)
    (hfits : ∀ p ∈ segmentsFrom elf h n i, p.vaddr + p.memsz ≤ 0xC0000000 ∧ p.offset + p.filesz ≤ 4294967296)
    (hrun : loadSegments elf h n i m = some (true, m')) : (∀ p ∈ segmentsFrom elf h n i, InMemory elf m' p) ∧
      ∀ va, va / 4096 ∈ D → loadByte m' va = loadByte m va := by
  induction n generalizing m i D frame with
  | zero =>
    cases hrun
    exact ⟨nofun, fun va _ => rfl⟩
  | succ n ih =>
    rw [segmentsFrom_succ] at hpages hapart hfits ⊢
    rw [loadSegments, Option.bind_eq_bind] at hrun
    generalize hp : phdrAt elf (word32 (h.phoff + i * h.phentsize)) = p at *
    by_cases htype : p.type = ptLoad
    · rw [if_pos htype, List.singleton_append] at hpages hapart hfits ⊢
      rw [if_pos htype] at hrun
      obtain ⟨⟨done, m₁⟩, hload, hrest⟩ := Option.bind_eq_some_iff.mp hrun
      cases done with
      | false => cases hrest
      | true =>
        rw [List.pairwise_cons] at hapart
        obtain ⟨⟨hin, hnew⟩, hpages⟩ := List.forall_mem_cons.mp hpages
        obtain ⟨⟨huser, hfile⟩, hfits⟩ := List.forall_mem_cons.mp hfits
        obtain ⟨frame', hprepared₁, hholds₁, hloaded, hkeep⟩ :=
          loadSegment_holds hprepared hholds hD hin hnew huser hfile hload
        obtain ⟨hothers, hlater⟩ := ih hprepared₁ hholds₁ (Set.union_subset hD hin)
          (fun p' hp' => ⟨(hpages p' hp').1, Set.disjoint_union_left.mpr ⟨(hpages p' hp').2, hapart.1 p' hp'⟩⟩)
          hapart.2 hfits hrest
        refine ⟨List.forall_mem_cons.mpr ⟨fun k hk => ?_, hothers⟩, fun va hva => ?_⟩
        · rw [hlater _ (.inr ⟨by omega, by omega⟩), hloaded k hk]
        · rw [hlater va (.inl hva), hkeep va hva]
    · rw [if_neg htype, List.nil_append] at hpages hapart hfits ⊢
      rw [if_neg htype] at hrun
      exact ih hprepared hholds hD hpages hapart hfits hrun

end Load
/-- Entry `j` of a relocation section changes nothing: its symbol has no value, or its type is not known. -/
def EntryIdle (elf : Mem) (h : Ehdr) (symtab : Option Shdr) (offset j : Nat) : Prop :=
  let info := load32 elf (word32 (offset + 8 * j) + 4)
  resolveSymbol elf h symtab (info / 256) = 0 ∨ info % 256 ≠ 1 ∧ info % 256 ≠ 2

def SectionIdle (elf : Mem) (h : Ehdr) (symtab : Option Shdr) (i : Nat) : Prop :=
  let strtab := shdrAt elf h h.shstrndx
  let s := shdrAt elf h i
  (s.name ≥ strtab.size ∨ ¬(s.type = shtRel ∨ s.type = shtRela) ∨
      strstr elf relPattern 4294967296 (strtab.offset + s.name) = false ∨
      word32 (s.offset + s.size) > word32 (h.shoff + h.shnum * 40 + 1) ∨ s.entsize = 0) ∨
    ∀ j < s.size / s.entsize, EntryIdle elf h symtab s.offset j

/-- The names of the sections lie behind the section headers, or no section has anything to relocate. -/
def SectionsIdle (elf : Mem) (h : Ehdr) : Prop :=
  let strtab := shdrAt elf h h.shstrndx
  let symtab := ((List.range h.shnum).map (shdrAt elf h)).find? fun s => s.type = shtSymtab
  word32 (strtab.offset + strtab.size) > word32 (h.shoff + h.shnum * 40 + 1) ∨
    ∀ i < h.shnum, SectionIdle elf h symtab i

def Unrelocated (elf : Mem) : Prop :=
  let h := ehdrAt elf
  h.type = etExec ∨ (h.type ≠ etRel ∧ h.flags % 2 = 0) ∨ SectionsIdle elf h

section Relocate

variable {elf : Mem} {h : Ehdr} {symtab : Option Shdr} {m m' : Machine}

theorem applyRelocation_unknown {relocAddr symAddr type : Nat} (htype : type ≠ 1 ∧ type ≠ 2) :
    applyRelocation m relocAddr symAddr type = some m := by
  rw [applyRelocation, if_neg htype.1, if_neg htype.2]

theorem relocateEntries_idle {offset n j : Nat} (hidle : ∀ k < n, EntryIdle elf h symtab offset (j + k)) :
    relocateEntries elf h symtab offset n j m = some m := by
  induction n generalizing j with
  | zero => rfl
  | succ n ih =>
    have hrest := ih (j := j + 1) fun k hk => by
      rw [Nat.add_assoc, Nat.add_comm 1 k]
      exact hidle (k + 1) (by omega)
    have hfirst : EntryIdle elf h symtab offset j := hidle 0 (Nat.succ_pos n)
    simp only [relocateEntries, Option.bind_eq_bind]
    by_cases hzero : resolveSymbol elf h symtab (load32 elf (word32 (offset + 8 * j) + 4) / 256) = 0
    · rw [if_pos hzero, Option.bind_some, hrest]
    · rw [if_neg hzero, applyRelocation_unknown (hfirst.resolve_left hzero), Option.bind_some, hrest]

theorem relocateSections_idle {n i : Nat} (hidle : ∀ k < n, SectionIdle elf h symtab (i + k)) :
    relocateSections elf h symtab n i m = some m := by
  induction n generalizing i with
  | zero => rfl
  | succ n ih =>
    have hrest := ih (i := i + 1) fun k hk => by
      rw [Nat.add_assoc, Nat.add_comm 1 k]
      exact hidle (k + 1) (by omega)
    have hfirst : SectionIdle elf h symtab i := hidle 0 (Nat.succ_pos n)
    simp only [relocateSections, Option.bind_eq_bind]
    split
    · rw [Option.bind_some, hrest]
    · rename_i hkept
      have hentries := hfirst.resolve_left hkept
      rw [relocateEntries_idle, Option.bind_some, hrest]
      intro k hk
      rw [Nat.zero_add]
      refine hentries k ?_
      split at hk
      · exact hk
      · exact absurd hk (Nat.not_lt_zero k)

theorem elfLoadWithArgs_some {entry : Nat} (hne : entry ≠ 0)
    (hload : elfLoadWithArgs elf m = some (entry, m')) :
    ∃ m₁, loadSegments elf (ehdrAt elf) (ehdrAt elf).phnum 0 m = some (true, m₁) ∧ entry = (ehdrAt elf).entry ∧
      (m' = m₁ ∨ ¬ (ehdrAt elf).type = etExec ∧ ((ehdrAt elf).type = etRel ∨ (ehdrAt elf).flags % 2 = 1) ∧
        handleRelocations elf (ehdrAt elf) m₁ = some m') := by
  have hzero : ∀ {m₀ : Machine}, some (0, m₀) ≠ some (entry, m') := by
    rintro m₀ heq
    cases heq
    exact hne rfl
  unfold elfLoadWithArgs at hload
  dsimp only at hload
  split at hload
  · exact absurd hload hzero
  split at hload
  · exact absurd hload hzero
  split at hload
  · exact absurd hload hzero
  obtain ⟨⟨done, m₁⟩, hsegments, hrest⟩ := Option.bind_eq_some_iff.mp hload
  cases done with
  | false => exact absurd hrest hzero
  | true =>
    refine ⟨m₁, hsegments, ?_⟩
    simp only [Bool.not_true, Bool.false_eq_true, if_false] at hrest
    split at hrest
    · cases hrest
      exact ⟨rfl, .inl rfl⟩
    · rename_i hexec
      split at hrest
      · rename_i hflagged
        obtain ⟨m₂, hrelocate, hdone⟩ := Option.bind_eq_some_iff.mp hrest
        cases hdone
        exact ⟨rfl, .inr ⟨hexec, hflagged, hrelocate⟩⟩
      · cases hrest
        exact ⟨rfl, .inl rfl⟩

theorem handleRelocations_idle (hidle : SectionsIdle elf h) : handleRelocations elf h m = some m := by
  unfold handleRelocations
  dsimp only
  split
  · rfl
  · rename_i hnames
    exact relocateSections_idle fun k hk => by
      rw [Nat.zero_add]
      exact hidle.resolve_left hnames k hk

end Relocate

/-- **The loader's postcondition.** Every image that is loaded lies in memory, with zeros behind the bytes of the
file. -/
theorem elfLoadWithArgs_inMemory {elf : Mem} {size entry : Nat} {m₀ m₁ m m' : Machine} (hboot : Boot m₀)
    (hinit : initPaging m₀ = some m₁) (hrun : Relation.ReflTransGen SafeStep m₁ m) (helf : WellFormed elf size)
    (hpages : (segments elf).Pairwise fun p p' => Disjoint p.pages p'.pages) (hreloc : Unrelocated elf)
    (hreaches : Reaches m (imagePages elf)) (hload : elfLoadWithArgs elf m = some (entry, m'))
    (hne : entry ≠ 0) :
    entry = (ehdrAt elf).entry ∧ ∀ p ∈ segments elf, InMemory elf m' p := by
  obtain ⟨m₂, hsegments, hentry, hlast⟩ := elfLoadWithArgs_some hne hload
  have hsame : m' = m₂ := by
    obtain rfl | ⟨hexec, hflagged, hrelocate⟩ := hlast
    · rfl
    · obtain hexec' | ⟨hrel, hflags⟩ | hidle := hreloc
      · exact absurd hexec' hexec
      · exact absurd hflagged (by omega)
      · rw [handleRelocations_idle hidle] at hrelocate
        exact (Option.some.inj hrelocate).symm
  subst hsame
  have hprepared : Prepared m (imagePages elf) :=
    { toReaches := hreaches
      layout := run_layout hrun (hboot.started hinit).layout
      user := by
        rintro q ⟨p, hp, -, hq⟩
        have huser := helf.user p hp
        omega }
  refine ⟨hentry, (loadSegments_holds hprepared (holds_empty m) (Set.empty_subset _)
    (fun p hp => ⟨fun q hq => ⟨p, hp, hq⟩, Set.empty_disjoint _⟩) hpages (fun p hp => ⟨helf.user p hp, ?_⟩)
    hsegments).1⟩
  have hfile := helf.file p hp
  have hsize := helf.size
  omega

section Runs

variable {m m' : Machine} {i j k : Nat}

theorem Ready.of_sameTables (h : Ready m) (hsame : SameTables m m') (hpmm : m'.pmm = m.pmm) : Ready m' := by
  have hlow := h.layout.dirTaken.1
  have htotal := Pmm.totalBlocks_eq
  have hpte := hsame.pte (i := m.dir / 1024) (by omega) h.dir.table (m.dir % 1024)
  refine
    { layout := h.layout.of_pde_eq hsame.dir hsame.active (hpmm ▸ h.layout.booted) (fun g hg => by rwa [hpmm])
        hsame.pde
      dir := ?_
      writable := fun i hi => by rw [hsame.pde]; exact h.writable i hi }
  rw [hsame.dir]
  exact
    { range := h.dir.range
      table := by rw [hsame.pde]; exact h.dir.table
      page := by rw [hpte]; exact h.dir.page
      frame := by rw [hpte]; exact h.dir.frame }

theorem Ready.prepared (h : Ready m) {P : Set Nat} (hP : ∀ q ∈ P, 32768 ≤ q ∧ q < 131072) : Prepared m P := by
  have hlow := h.layout.dirTaken.1
  have htotal := Pmm.totalBlocks_eq
  exact
    { dir := h.dir
      notDir := fun hin => by
        have := (hP _ hin).1
        omega
      tables := fun q hq habsent => by
        have hbounds := hP q hq
        exact absurd (h.layout.low (q / 1024) (by omega)) habsent
      layout := h.layout
      user := fun q hq => by
        have := (hP q hq).2
        omega }

theorem loadSegment_runs (elf : Mem) {p : Phdr} (hm : Ready m) (hi : 32 ≤ i ∧ i < 128) (hflags : p.flags = 7)
    (hsizes : p.filesz ≤ p.memsz) (hstart : p.vaddr / 4096 = i * 1024 + j)
    (hend : (p.vaddr + p.memsz + 4095) / 4096 = i * 1024 + j + k) (hj : j + k ≤ 1024)
    (hroom : k ≤ Pmm.freeBelow m.pmm totalBlocks) :
    ∃ m₁ m', loadSegment elf p m = some (true, m') ∧ Mapping m m₁ i j k ∧ SameTables m₁ m' ∧
    m'.pmm = m₁.pmm := by
  have hnone : Mapping m m i j 0 :=
    { ready := hm
      taken := Pmm.Taken.start hm.layout.booted
      structural := fun _ => Iff.rfl
      user := nofun
      page := nofun }
  obtain ⟨m₁, hmap, hmapping⟩ := hnone.mapSegment hi.1 hi.2 (n := k) (by omega) (by omega)
  rw [Nat.zero_add] at hmapping
  have hplaced := hmapping.placed hi.2 hm.layout hj
  obtain ⟨m₂, hcopy, hsame, hpmm, -⟩ := (hplaced.sub p.vaddr p.filesz (by omega) (by omega)).copyBytes
    (by omega) fun k => elf (word32 (p.offset + k))
  obtain ⟨m₃, hzero, hsame', hpmm', -⟩ := ((hplaced.of_sameTables hsame).sub (p.vaddr + p.filesz)
    (p.memsz - p.filesz) (by omega) (by omega)).copyBytes (by omega) fun _ => 0
  refine ⟨m₁, m₃, ?_, hmapping, hsame.trans hsame', hpmm'.trans hpmm⟩
  have hpages : (word32 (p.vaddr + p.memsz + 4095) / 4096 * 4096 - p.vaddr / 4096 * 4096) / 4096 = k := by
    rw [word32, Nat.mod_eq_of_lt (by omega)]
    omega
  have haddr : p.vaddr / 4096 * 4096 = i * 4194304 + (j + 0) * 4096 := by omega
  have hrun : mapSegment (phdrFlagsToPte p.flags) k (p.vaddr / 4096 * 4096) m = some (true, m₁) := by
    rw [hflags, haddr]
    exact hmap
  rw [loadSegment, if_neg (by omega)]
  simp only [hpages, hrun, Option.bind_eq_bind, Option.bind_some, Bool.not_true, Bool.false_eq_true,
    if_false, hcopy,
    hzero]

theorem loadSegments_load {elf : Mem} {h : Ehdr} {n i : Nat} {p : Phdr}
    (hp : phdrAt elf (word32 (h.phoff + i * h.phentsize)) = p) (htype : p.type = ptLoad)
    (hload : loadSegment elf p m = some (true, m')) :
    loadSegments elf h (n + 1) i m = loadSegments elf h n (i + 1) m' := by
  rw [loadSegments, hp, if_pos htype, hload]
  rfl

theorem one_le_freeBelow {f : Nat} (hf : f < totalBlocks) (hclear : Bitmap.test m.pmm.bitmap f = false) :
    1 ≤ Pmm.freeBelow m.pmm totalBlocks := by
  have hmono : Pmm.freeBelow m.pmm (f + 1) ≤ Pmm.freeBelow m.pmm totalBlocks := Nat.count_monotone _ hf
  rw [Pmm.freeBelow_succ, if_pos hclear] at hmono
  omega

end Runs

theorem Mapping.left {m m₁ : Machine} {i j n : Nat} (h : Mapping m m₁ i j 1)
    (hclear : ∀ f, f < 32768 → (Bitmap.test m.pmm.bitmap f = false ↔ n ≤ f)) (f : Nat) (hf : f < 32768) :
    Bitmap.test m₁.pmm.bitmap f = false ↔ n + 1 ≤ f := by
  rw [h.taken.clear_iff hf, hclear f hf]
  constructor
  · rintro ⟨hlow, hone⟩
    by_contra hless
    have hbelow : Pmm.freeBelow m.pmm f = 0 := by
      refine Nat.count_iff_forall_not.mpr fun g hg hfree => ?_
      have := (hclear g (by omega)).mp hfree
      omega
    omega
  · intro hlow
    have hmono : Pmm.freeBelow m.pmm (n + 1) ≤ Pmm.freeBelow m.pmm f := Nat.count_monotone _ hlow
    rw [Pmm.freeBelow_succ, if_pos ((hclear n (by omega)).mpr le_rfl)] at hmono
    exact ⟨by omega, by omega⟩

theorem lowest_eq {m : Machine} {n f : Nat}
    (hclear : ∀ f, f < 32768 → (Bitmap.test m.pmm.bitmap f = false ↔ n ≤ f)) (hn : n < 32768)
    (hfree : Bitmap.test m.pmm.bitmap f = false) (hcount : Pmm.freeBelow m.pmm f = 0) : f = n := by
  have hclear' := (hclear n hn).mpr le_rfl
  by_contra hne
  have habove : n < f := by
    by_cases hf : f < 32768
    · have := (hclear f hf).mp hfree
      omega
    · omega
  have hmono : Pmm.freeBelow m.pmm (n + 1) ≤ Pmm.freeBelow m.pmm f := Nat.count_monotone _ habove
  rw [Pmm.freeBelow_succ, if_pos hclear'] at hmono
  omega

section Trial

open ByteMem (blit store16 store32)

def trialHeader (type phnum shoff shnum : Nat) : Mem :=
  store16 (store16 (store16 (store32 (store32 (store32 (store16 (store16 (blit (fun _ => 0) 0 8 elfIdent)
    16 type) 18 em386) 24 0x08048000) 28 52) 32 shoff) 42 32) 44 phnum) 48 shnum

def withSegment (a offset vaddr size : Nat) (buf : Mem) : Mem :=
  store32 (store32 (store32 (store32 (store32 (store32 buf a ptLoad) (a + 4) offset) (a + 8) vaddr)
    (a + 16) size) (a + 20) size) (a + 24) 7

def withSection (a type offset size entsize : Nat) (buf : Mem) : Mem :=
  store32 (store32 (store32 (store32 buf (a + 4) type) (a + 16) offset) (a + 20) size) (a + 36) entsize

def trialPhdr (offset vaddr size : Nat) : Phdr :=
  { type := ptLoad
    offset := offset
    vaddr := vaddr
    filesz := size
    memsz := size
    flags := 7 }

def twoSegments (vaddr : Nat) : Mem :=
  withSegment 84 1 vaddr 1 (withSegment 52 0 0x08048000 1 (trialHeader etExec 2 0 0))

def relocatedImage : Mem :=
  withSection 200 shtRel 112 8 8 (withSection 160 shtSymtab 96 16 16 (withSection 120 3 88 6 0
    (store32 (store32 (store16 (store32 (blit (withSegment 52 84 0x08048000 4 (trialHeader etRel 1 120 3))
      88 5 fun k => relPattern.getD k 0) 100 5) 110 1) 112 0x08048000) 116 1)))

deriving instance DecidableEq for Ehdr, Phdr, Shdr

variable {v : Nat}

section

variable (hv : v = 0x08048001 ∨ v = 0x08049000)

include hv

theorem phdrAt_twoSegments :
    phdrAt (twoSegments v) 52 = trialPhdr 0 0x08048000 1 ∧ phdrAt (twoSegments v) 84 = trialPhdr 1 v 1 ∧
      segments (twoSegments v) = [trialPhdr 0 0x08048000 1, trialPhdr 1 v 1] := by
  obtain rfl | rfl := hv <;> decide

theorem wellFormed_twoSegments : WellFormed (twoSegments v) 116 := by
  have hsegments := (phdrAt_twoSegments hv).2.2
  refine
    { apart := ?_
      user := ?_
      file := ?_
      size := by decide }
  · rw [hsegments, List.pairwise_pair, Set.disjoint_left]
    rintro a ⟨-, hlow⟩ ⟨hhigh, -⟩
    simp only [trialPhdr] at hlow hhigh
    omega
  · rw [hsegments]
    simp only [List.forall_mem_cons, List.not_mem_nil, false_imp_iff, implies_true, and_true, trialPhdr]
    omega
  · rw [hsegments]
    simp [trialPhdr]

theorem imagePages_twoSegments : ∀ q ∈ imagePages (twoSegments v), 32768 ≤ q ∧ q < 131072 := by
  rintro q ⟨p, hp, hlow, hhigh⟩
  rw [(phdrAt_twoSegments hv).2.2] at hp
  simp only [List.mem_cons, List.not_mem_nil, or_false, trialPhdr] at hp
  obtain rfl | rfl := hp <;> dsimp only at hlow hhigh <;> omega

def twoSegmentsEhdr : Ehdr :=
  { type := etExec
    machine := em386
    entry := 0x08048000
    phoff := 52
    shoff := 0
    flags := 0
    phentsize := 32
    phnum := 2
    shnum := 0
    shstrndx := 0 }

theorem ehdrAt_twoSegments :
    ehdrAt (twoSegments v) = twoSegmentsEhdr ∧ ∀ k < 6, twoSegments v k = elfIdent k := by
  obtain rfl | rfl := hv <;> decide

end

theorem twoSegments_load {m : Machine} (hm : Ready m) (hv : v = 0x08048001 ∨ v = 0x08049000)
    (hfirst : Bitmap.test m.pmm.bitmap 641 = false) (hsecond : Bitmap.test m.pmm.bitmap 642 = false) :
    ∃ m₁ m₂ m₃ m', loadSegment (twoSegments v) (trialPhdr 0 0x08048000 1) m = some (true, m₂) ∧
      Mapping m m₁ 32 72 1 ∧ SameTables m₁ m₂ ∧ m₂.pmm = m₁.pmm ∧
      loadSegment (twoSegments v) (trialPhdr 1 v 1) m₂ = some (true, m') ∧
      Mapping m₂ m₃ 32 (v / 4096 - 32768) 1 ∧ SameTables m₃ m' ∧
      elfLoadWithArgs (twoSegments v) m = some (0x08048000, m') := by
  obtain ⟨hphdr, hphdr', -⟩ := phdrAt_twoSegments hv
  obtain ⟨m₁, m₂, hload, hmapping, hsame, hpmm⟩ :=
    loadSegment_runs (twoSegments v) (p := trialPhdr 0 0x08048000 1)
    (i := 32) (j := 72) (k := 1) hm (by decide) rfl (by decide) (by decide) (by decide) (by decide)
    (one_le_freeBelow (by decide) hfirst)
  have hleft : Bitmap.test m₂.pmm.bitmap 642 = false := by
    rw [hpmm, hmapping.taken.clear_iff (by decide)]
    refine ⟨hsecond, ?_⟩
    rw [show 642 = 641 + 1 from rfl, Pmm.freeBelow_succ, if_pos hfirst]
    omega
  obtain ⟨m₃, m', hload', hmapping', hsame', -⟩ := loadSegment_runs (twoSegments v) (p := trialPhdr 1 v 1)
    (i := 32) (j := v / 4096 - 32768) (k := 1) (hmapping.ready.of_sameTables hsame hpmm) (by decide) rfl le_rfl
    (by dsimp only [trialPhdr]; omega) (by dsimp only [trialPhdr]; omega) (by omega)
    (one_le_freeBelow (by decide) hleft)
  refine ⟨m₁, m₂, m₃, m', hload, hmapping, hsame, hpmm, hload', hmapping', hsame', ?_⟩
  obtain ⟨hehdr, hident⟩ := ehdrAt_twoSegments hv
  rw [elfLoadWithArgs, hehdr, hident 0 (by decide), hident 1 (by decide), hident 2 (by decide),
    hident 3 (by decide),
    hident 4 (by decide), hident 5 (by decide)]
  have hrun : loadSegments (twoSegments v) twoSegmentsEhdr 2 0 m = some (true, m') :=
    calc loadSegments (twoSegments v) twoSegmentsEhdr 2 0 m
        = loadSegments (twoSegments v) twoSegmentsEhdr 1 1 m₂ := loadSegments_load hphdr rfl hload
      _ = loadSegments (twoSegments v) twoSegmentsEhdr 0 2 m' := loadSegments_load hphdr' rfl hload'
  have hphnum : twoSegmentsEhdr.phnum = 2 := rfl
  rw [hphnum, hrun]
  rfl

theorem trialMachine : ∃ m₁ m, initPaging bootMachine = some m₁ ∧
    Relation.ReflTransGen SafeStep m₁ m ∧ Ready m ∧
    m.phys 642 0 = 0 ∧ ∀ f, f < 32768 → (Bitmap.test m.pmm.bitmap f = false ↔ 641 ≤ f) := by
  obtain ⟨m₁, hinit, hs⟩ := bootMachine_started
  have hclear := (heap_clear_iff hs (f := 642) (by decide)).mpr (by decide)
  have hplain := hs.layout.not_structural_of_clear hclear
  have hready := ready_initPaging bootMachine_boot hinit
  refine ⟨m₁, m₁.set 642 0 0, hinit, .single ⟨.write 642 0 0, hplain, trivial, rfl⟩,
    hready.of_sameTables (SameTables.set hplain 0 0) rfl, ?_, fun f hf => heap_clear_iff hs hf⟩
  rw [Machine.set_eq_setFrame, Machine.phys_setFrame_same, update_self]

theorem elfLoadWithArgs_inMemory_twoSegments : ∃ m₁ m m', initPaging bootMachine = some m₁ ∧
      elfLoadWithArgs (twoSegments 0x08049000) m = some (0x08048000, m') ∧
      ∀ p ∈ [trialPhdr 0 0x08048000 1, trialPhdr 1 0x08049000 1], InMemory (twoSegments 0x08049000) m' p := by
  obtain ⟨m₁, m, hinit, hrun, hm, -, hclear⟩ := trialMachine
  obtain ⟨-, -, -, m', -, -, -, -, -, -, -, hload⟩ :=
    twoSegments_load hm (.inr rfl) ((hclear 641 (by decide)).mpr (by decide))
    ((hclear 642 (by decide)).mpr (by decide))
  have hv : 0x08049000 = 0x08048001 ∨ 0x08049000 = 0x08049000 := .inr rfl
  have hsegments := (phdrAt_twoSegments hv).2.2
  have hpages : (segments (twoSegments 0x08049000)).Pairwise fun p p' => Disjoint p.pages p'.pages := by
    rw [hsegments, List.pairwise_pair, Set.disjoint_left]
    rintro q ⟨-, hlow⟩ ⟨hhigh, -⟩
    simp only [trialPhdr] at hlow hhigh
    omega
  have htype : (ehdrAt (twoSegments 0x08049000)).type = etExec := by
    rfl
  obtain ⟨-, hmemory⟩ := elfLoadWithArgs_inMemory bootMachine_boot hinit hrun
    (wellFormed_twoSegments hv) hpages
    (.inl htype) (hm.prepared (imagePages_twoSegments hv)).toReaches hload (by decide)
  exact ⟨m₁, m, m', hinit, hload, hmemory⟩

theorem sharedPage_lost {m m' : Machine} (hm : Ready m) (hzero : m.phys 642 0 = 0)
    (hclear : ∀ f, f < 32768 → (Bitmap.test m.pmm.bitmap f = false ↔ 641 ≤ f))
    (hload : elfLoadWithArgs (twoSegments 0x08048001) m = some (0x08048000, m')) :
    loadByte m' 0x08048000 = some 0 := by
  have hfirst := (hclear 641 (by decide)).mpr (by decide)
  have hsecond := (hclear 642 (by decide)).mpr (by decide)
  obtain ⟨m₁, m₂, m₃, n', hloadA, hmapA, hsameA, hpmmA, hloadB, hmapB, hsameB, hrun⟩ :=
    twoSegments_load hm (.inl rfl) hfirst hsecond
  obtain rfl : n' = m' := by
    rw [hload] at hrun
    exact ((Prod.mk.injEq _ _ _ _ ▸ Option.some.inj hrun).2).symm
  have hpages : ∀ p : Phdr, p.vaddr / 4096 = 32840 → (p.vaddr + p.memsz + 4095) / 4096 = 32841 →
    p.pages = {32840} := by
    intro p hstart hend
    ext q
    simp only [Phdr.pages, Set.mem_ofPred_eq, Set.mem_singleton_iff, hstart, hend]
    omega
  have hP : ∀ q ∈ ({32840} : Set Nat), 32768 ≤ q ∧ q < 131072 := by
    rintro q rfl
    decide
  -- the first load takes frame 641, and leaves 642 as it was
  have hleft : ∀ f, f < 32768 → (Bitmap.test m₂.pmm.bitmap f = false ↔ 642 ≤ f) := hpmmA ▸ hmapA.left hclear
  obtain ⟨a, frameA, hprepA, hholdsA, hphysA, -, hfillA⟩ := loadSegment_filled (hm.prepared hP) (holds_empty m)
    (Set.empty_subset _) (hpages (trialPhdr 0 0x08048000 1) (by decide) (by decide)).subset
      (Set.empty_disjoint _)
    (by decide) (by decide) hloadA
  have hfree : Bitmap.test a.pmm.bitmap 642 = false := by
    rw [← hfillA.pmm]
    exact (hleft 642 (by decide)).mpr le_rfl
  have hkept : m₂.phys 642 0 = 0 := by
    rw [hfillA.phys 642 fun q hq heq => hholdsA.taken q hq (heq ▸ ⟨by decide, hfree⟩),
      hphysA 642 (hprepA.layout.not_structural_of_clear hfree), hzero]
  -- the second load takes frame 642 for the same page
  have hready : Ready m₂ := hmapA.ready.of_sameTables hsameA hpmmA
  obtain ⟨b, frameB, hprepB, hholdsB, hphysB, -, hfillB⟩ :=
    loadSegment_filled (hready.prepared hP) (holds_empty m₂)
    (Set.empty_subset _) (hpages (trialPhdr 1 0x08048001 1) (by decide) (by decide)).subset
      (Set.empty_disjoint _)
    (by decide) (by decide) hloadB
  have hin : 0x08048000 / 4096 ∈ ∅ ∪ (trialPhdr 1 0x08048001 1).pages := .inr ⟨by decide, by decide⟩
  have hframe : frameB 32840 = 642 := by
    obtain ⟨f, hf, hcount, hpte⟩ := hmapB.page 0 (by decide)
    have hentry : m₃.pte 32 72 = b.pte 32 72 :=
      (hsameB.pte (by decide) (hmapB.ready.layout.low 32 (by decide)) 72).symm.trans
        (hfillB.same.pte (by decide) (hprepB.layout.low 32 (by decide)) 72)
    have hown := (hholdsB.page 32840 hin).2
    rw [show 32840 / 1024 = 32 from rfl, show 32840 % 1024 = 72 from rfl, ← hentry] at hown
    have hfound : frameB 32840 = f := by
      rw [← hown]
      exact (congrArg frameOf hpte).trans (frameOf_entryFor_frame f 7)
    rw [hfound]
    exact lowest_eq hleft (by decide) hf hcount
  have hplain : ¬ Structural b 642 := hframe ▸ hholdsB.plain 32840 hin
  rw [hfillB.bytes _ hin, if_neg (by decide), hholdsB.byte hprepB (Set.union_subset (Set.empty_subset _)
    (hpages (trialPhdr 1 0x08048001 1) (by decide) (by decide)).subset) hin]
  rw [show 0x08048000 / 4096 = 32840 from rfl, hframe, hphysB 642 hplain,
    show 0x08048000 / 4 % 1024 = 0 from rfl, hkept]
  rfl

theorem phdrAt_relocatedImage : phdrAt relocatedImage 52 = trialPhdr 84 0x08048000 4 ∧
    segments relocatedImage = [trialPhdr 84 0x08048000 4] := by
  decide

def relocatedEhdr : Ehdr :=
  { type := etRel
    machine := em386
    entry := 0x08048000
    phoff := 52
    shoff := 120
    flags := 0
    phentsize := 32
    phnum := 1
    shnum := 3
    shstrndx := 0 }

theorem ehdrAt_relocatedImage :
    ehdrAt relocatedImage = relocatedEhdr ∧ ∀ k < 6, relocatedImage k = elfIdent k := by
  decide

def trialShdr (type offset size entsize : Nat) : Shdr :=
  { name := 0
    type := type
    offset := offset
    size := size
    link := 0
    entsize := entsize }

theorem shdrAt_relocatedImage : shdrAt relocatedImage relocatedEhdr 0 = trialShdr 3 88 6 0 ∧
    shdrAt relocatedImage relocatedEhdr 1 = trialShdr shtSymtab 96 16 16 ∧
    shdrAt relocatedImage relocatedEhdr 2 = trialShdr shtRel 112 8 8 := by
  decide

theorem handleRelocations_relocatedImage (m : Machine) :
    handleRelocations relocatedImage relocatedEhdr m = applyRelocation m 0x08048000 5 1 := by
  have hnames : strstr relocatedImage relPattern 4294967296 88 = true := by
    decide
  obtain ⟨hstrtab, hsymtab, hrel⟩ := shdrAt_relocatedImage
  have hfound : ((List.range relocatedEhdr.shnum).map (shdrAt relocatedImage relocatedEhdr)).find?
      (fun s => s.type = shtSymtab) = some (trialShdr shtSymtab 96 16 16) := by
    decide
  have hentry : load32 relocatedImage (word32 (112 + 8 * 0)) = 0x08048000 ∧
      load32 relocatedImage (word32 (112 + 8 * 0) + 4) = 1 := by
    decide
  have hsymbol : resolveSymbol relocatedImage relocatedEhdr (some (trialShdr shtSymtab 96 16 16)) 0 = 5 := by
    decide
  have hentries : relocateEntries relocatedImage relocatedEhdr
    (some (trialShdr shtSymtab 96 16 16)) 112 1 0 m =
      applyRelocation m 0x08048000 5 1 := by
    simp only [relocateEntries, hentry, Nat.reduceDiv, hsymbol, Nat.reduceMod]
    exact bind_pure _
  have hshstrndx : relocatedEhdr.shstrndx = 0 := rfl
  have hshnum : relocatedEhdr.shnum = 3 := rfl
  have hshoff : relocatedEhdr.shoff = 120 := rfl
  unfold handleRelocations
  rw [hfound, hshstrndx, hstrtab, if_neg (by decide), hshnum]
  simp only [relocateSections, hshstrndx, hstrtab, hsymtab, hrel, hshnum, hshoff, trialShdr,
    Nat.add_zero, hnames]
  exact (bind_pure _).trans hentries

theorem wellFormed_relocatedImage : WellFormed relocatedImage 240 := by
  have hsegments := phdrAt_relocatedImage.2
  refine
    { apart := ?_
      user := ?_
      file := ?_
      size := by decide }
  · exact List.pairwise_singleton _ _
  · rw [hsegments]
    simp [trialPhdr]
  · rw [hsegments]
    simp [trialPhdr]

theorem relocatedImage_load {m : Machine} (hm : Ready m) (hfirst : Bitmap.test m.pmm.bitmap 641 = false) :
    ∃ m', elfLoadWithArgs relocatedImage m = some (0x08048000, m') ∧ loadByte m' 0x08048000 = some 5 := by
  obtain ⟨m₁, m₂, hload, -, -, -⟩ := loadSegment_runs relocatedImage (p := trialPhdr 84 0x08048000 4)
    (i := 32) (j := 72) (k := 1) hm (by decide) rfl le_rfl (by decide) (by decide) (by decide)
    (one_le_freeBelow (by decide) hfirst)
  have hP : ∀ q ∈ (trialPhdr 84 0x08048000 4).pages, 32768 ≤ q ∧ q < 131072 := by
    rintro q ⟨hlow, hhigh⟩
    simp only [trialPhdr] at hlow hhigh
    omega
  obtain ⟨frame, hprepared, hholds, hmemory, -⟩ := loadSegment_holds (hm.prepared hP) (holds_empty m)
    (Set.empty_subset _) subset_rfl (Set.empty_disjoint _) (by decide) (by decide) hload
  have hin : ∅ ∪ (trialPhdr 84 0x08048000 4).pages ⊆ (trialPhdr 84 0x08048000 4).pages :=
    Set.union_subset (Set.empty_subset _) subset_rfl
  have hrange : ∀ k < 4, (0x08048000 + k) / 4096 ∈ ∅ ∪ (trialPhdr 84 0x08048000 4).pages := fun k hk => by
    refine .inr ⟨?_, ?_⟩ <;> simp only [trialPhdr] <;> omega
  have hzeros : ∀ k < 4, loadByte m₂ (0x08048000 + k) = some 0 := by
    intro k hk
    have hfile : ∀ k < 4, relocatedImage (84 + k) = 0 := by decide
    have hbyte := hmemory k hk
    rwa [if_pos (show k < (trialPhdr 84 0x08048000 4).filesz from hk),
      show (trialPhdr 84 0x08048000 4).offset = 84 from rfl, hfile k hk] at hbyte
  have hword : loadWord m₂ 0x08048000 = some 0 := by
    unfold loadWord
    rw [hzeros 0 (by decide), show word32 (0x08048000 + 1) = 0x08048000 + 1 from rfl, hzeros 1 (by decide),
      show word32 (0x08048000 + 2) = 0x08048000 + 2 from rfl, hzeros 2 (by decide),
      show word32 (0x08048000 + 3) = 0x08048000 + 3 from rfl, hzeros 3 (by decide)]
    rfl
  obtain ⟨m', hcopy, -, -, -, hbytes⟩ := hholds.copyBytes hprepared hin hrange (byteOf 5)
  refine ⟨m', ?_, ?_⟩
  · obtain ⟨hehdr, hident⟩ := ehdrAt_relocatedImage
    have hrun : loadSegments relocatedImage relocatedEhdr 1 0 m = some (true, m₂) :=
      loadSegments_load phdrAt_relocatedImage.1 rfl hload
    have happly : applyRelocation m₂ 0x08048000 5 1 = some m' := by
      rw [applyRelocation, if_pos rfl, hword]
      exact hcopy
    have hphnum : relocatedEhdr.phnum = 1 := rfl
    rw [elfLoadWithArgs, hehdr, hident 0 (by decide), hident 1 (by decide), hident 2 (by decide),
      hident 3 (by decide), hident 4 (by decide), hident 5 (by decide)]
    rw [if_neg (by decide), if_neg (by decide), if_neg (by decide), hphnum, hrun]
    simp only [Option.bind_eq_bind, Option.bind_some, Bool.not_true, Bool.false_eq_true, if_false,
      handleRelocations_relocatedImage, happly]
    rfl
  · rw [hbytes 0x08048000 (hrange 0 (by decide)), if_pos (by decide)]
    rfl

/-- A relocated word is not that of the file, and of two segments that share a page the first is lost. -/
theorem not_inMemory_trial :
    ∃ m₁ m m₂ m₃, initPaging bootMachine = some m₁ ∧ Relation.ReflTransGen SafeStep m₁ m ∧
      (WellFormed relocatedImage 240 ∧ Reaches m (imagePages relocatedImage) ∧
        elfLoadWithArgs relocatedImage m = some (0x08048000, m₂) ∧
        ¬ ∀ p ∈ segments relocatedImage, InMemory relocatedImage m₂ p) ∧
      WellFormed (twoSegments 0x08048001) 116 ∧ Reaches m (imagePages (twoSegments 0x08048001)) ∧
        elfLoadWithArgs (twoSegments 0x08048001) m = some (0x08048000, m₃) ∧
        ¬ ∀ p ∈ segments (twoSegments 0x08048001), InMemory (twoSegments 0x08048001) m₃ p := by
  obtain ⟨m₁, m, hinit, hrun, hm, hzero, hclear⟩ := trialMachine
  have hfirst := (hclear 641 (by decide)).mpr (by decide)
  have hv : 0x08048001 = 0x08048001 ∨ 0x08048001 = 0x08049000 := .inl rfl
  obtain ⟨m₂, hrelocated, hfive⟩ := relocatedImage_load hm hfirst
  obtain ⟨-, -, -, m₃, -, -, -, -, -, -, -, hshared⟩ :=
    twoSegments_load hm hv hfirst ((hclear 642 (by decide)).mpr (by decide))
  have hlost := sharedPage_lost hm hzero hclear hshared
  have hpages : ∀ q ∈ imagePages relocatedImage, 32768 ≤ q ∧ q < 131072 := by
    rintro q ⟨p, hp, hlow, hhigh⟩
    rw [phdrAt_relocatedImage.2, List.mem_singleton] at hp
    subst hp
    simp only [trialPhdr] at hlow hhigh
    omega
  refine ⟨m₁, m, m₂, m₃, hinit, hrun,
    ⟨wellFormed_relocatedImage, (hm.prepared hpages).toReaches, hrelocated, fun hmemory => ?_⟩,
    wellFormed_twoSegments hv, (hm.prepared (imagePages_twoSegments hv)).toReaches, hshared, fun hmemory => ?_⟩
  · have hfile : relocatedImage 84 = 0 := by decide
    have hbyte : loadByte m₂ 0x08048000 = some (relocatedImage 84) :=
      hmemory _ (List.mem_singleton_self _) 0 (by decide)
    rw [hfive, hfile] at hbyte
    exact absurd hbyte (by decide)
  · have hbyte : loadByte m₃ 0x08048000 = some (twoSegments 0x08048001 0) :=
      hmemory _ List.mem_cons_self 0 (by decide)
    rw [hlost, (ehdrAt_twoSegments hv).2 0 (by decide)] at hbyte
    exact absurd hbyte (by decide)

end Trial
end JexOs.Elf
