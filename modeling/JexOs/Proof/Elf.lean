import JexOs.Elf
import JexOs.Proof.PagingRun
import Mathlib.Tactic.IntervalCases

/-!
# Compiled programs load

The file that `generate_elf32` writes around a program, read back by the loader.
-/

namespace JexOs.Elf

open ByteMem List Option
open Paging
open Pmm (Booted Taken freeBelow kernelPages totalBlocks)

def tccEhdr : Ehdr :=
  { type := etExec
    machine := em386
    entry := 0x08048080
    phoff := 52
    shoff := 0
    flags := 0
    phentsize := 32
    phnum := 1
    shnum := 0
    shstrndx := 0 }

def tccPhdr (codeSize : Nat) : Phdr :=
  { type := ptLoad
    offset := 84
    vaddr := 0x08048080
    filesz := codeSize
    memsz := codeSize
    flags := 7 }

section Headers

variable (code : Mem) (codeSize : Nat) (buf : Mem)

theorem ehdrAt_generateElf32 : ehdrAt (generateElf32 code codeSize buf).1 = tccEhdr := by
  simp only [ehdrAt, generateElf32, tccEhdr, etExec, em386, Ehdr.mk.injEq, store16, store32]
  refine ⟨?_, ?_, ?_, ?_, ?_, ?_, ?_, ?_, ?_, ?_⟩
  -- the later stores lie elsewhere
  all_goals
    repeat first
      | rw [load16_blit_of_disjoint (by omega)]
      | rw [load32_blit_of_disjoint (by omega)]
    first
      | exact load16_store16 (by omega)
      | exact load32_store32 (by omega)

theorem phdrAt_generateElf32 (hmax : codeSize ≤ 1048576) :
    phdrAt (generateElf32 code codeSize buf).1 52 = tccPhdr codeSize := by
  simp only [phdrAt, generateElf32, tccPhdr, ptLoad, Phdr.mk.injEq, Nat.reduceAdd]
  refine ⟨?_, ?_, ?_, ?_, ?_, ?_⟩
  all_goals
    rw [load32_blit_of_disjoint (by omega)]
    repeat rw [load32_store32_of_disjoint (by omega)]
    exact load32_store32 (by omega)

theorem generateElf32_ident {k : Nat} (hk : k < 8) : (generateElf32 code codeSize buf).1 k = elfIdent k := by
  simp only [generateElf32, store16, store32]
  repeat rw [blit_of_lt (by omega)]
  rw [blit_of_mem (by omega) (by omega), Nat.sub_zero]

theorem generateElf32_code {k : Nat} (hk : k < codeSize) :
    (generateElf32 code codeSize buf).1 (84 + k) = code k :=
  blit_add hk

end Headers

theorem byteOf_setByte {word i j b : Nat} (hi : i < 4) (hj : j < 4) (hb : b < 256) :
    byteOf (setByte word i b) j = if j = i then UInt8.ofNat b else byteOf word j := by
  have hdigit : setByte word i b / 256 ^ j % 256 = if j = i then b else word / 256 ^ j % 256 := by
    unfold setByte
    interval_cases i <;> interval_cases j <;> simp <;> omega
  apply UInt8.toNat_inj.mp
  rw [toNat_byteOf, hdigit]
  split
  · simp
    omega
  · rw [toNat_byteOf]

structure SameTables (m m' : Machine) : Prop where
  dir : m'.dir = m.dir
  active : m'.active = m.active
  tables : ∀ f, Structural m f → m'.phys f = m.phys f

namespace SameTables

variable {m m' m'' : Machine}

theorem refl (m : Machine) : SameTables m m := ⟨rfl, rfl, fun _ _ => rfl⟩

section

variable (h : SameTables m m')

include h

theorem pde (i : Nat) : m'.pde i = m.pde i := by
  unfold Machine.pde
  rw [h.dir, h.tables _ (.inl rfl)]

theorem pte {i : Nat} (hi : i < 1024) (hpresent : present (m.pde i)) (j : Nat) : m'.pte i j = m.pte i j := by
  unfold Machine.pte
  rw [h.pde, h.tables _ (Structural.table hi hpresent)]

theorem structural (f : Nat) : Structural m' f ↔ Structural m f := by
  unfold Structural
  simp only [h.pde, h.dir]

theorem translate (va : Nat) : m'.translate va = m.translate va := by
  rw [translate_eq, translate_eq m, h.active]
  simp only [h.pde]
  by_cases hpresent : present (m.pde (va / 4194304 % 1024))
  · rw [h.pte (Nat.mod_lt _ (by decide)) hpresent]
  · simp only [if_neg hpresent]

theorem trans (h' : SameTables m' m'') : SameTables m m'' :=
  { dir := h'.dir.trans h.dir
    active := h'.active.trans h.active
    tables := fun f hf => (h'.tables f ((h.structural f).mpr hf)).trans (h.tables f hf) }

end

theorem set {f : Nat} (hplain : ¬Structural m f) (w v : Nat) : SameTables m (m.set f w v) := by
  refine ⟨rfl, rfl, fun g hg => ?_⟩
  have hne : g ≠ f := by
    rintro rfl
    exact hplain hg
  exact Machine.phys_setFrame_of_ne hne

end SameTables

variable {m : Machine} {va entry flags n : Nat}

theorem loadByte_of_translate {p : Nat × Nat}
    (h : m.translate va = some p) : loadByte m va = some (byteOf (m.phys p.1 p.2) (va % 4)) := by
  rw [loadByte, h, map_some]

structure Placed (m : Machine) (dst n : Nat) (place : Nat → Nat × Nat) : Prop where
  translate : ∀ va, dst ≤ va → va < dst + n → m.translate va = some (place va)
  plain : ∀ va, dst ≤ va → va < dst + n → ¬Structural m (place va).1
  apart : ∀ va va', dst ≤ va → va < dst + n → dst ≤ va' → va' < dst + n → place va = place va' →
    va / 4 = va' / 4

section Copy

variable {m : Machine} {dst n : Nat} {place : Nat → Nat × Nat} (h : Placed m dst n place)

include h

theorem Placed.of_sameTables {m' : Machine} (hsame : SameTables m m') : Placed m' dst n place :=
  { translate := fun va hlow hhigh => (hsame.translate va).trans (h.translate va hlow hhigh)
    plain := fun va hlow hhigh hf => h.plain va hlow hhigh ((hsame.structural _).mp hf)
    apart := h.apart }

theorem Placed.storeByte {va : Nat} (hlow : dst ≤ va) (hhigh : va < dst + n) (b : UInt8) :
    ∃ m', storeByte m va b = some m' ∧ SameTables m m' ∧ m'.pmm = m.pmm ∧
      ∀ va', dst ≤ va' → va' < dst + n → loadByte m' va' = if va' = va then some b else loadByte m va' := by
  have htranslate := h.translate va hlow hhigh
  have hplain := h.plain va hlow hhigh
  have hsame := SameTables.set hplain (place va).2
    (setByte (m.phys (place va).1 (place va).2) (va % 4) b.toNat)
  refine ⟨_, by rw [Elf.storeByte, htranslate]; rfl, hsame, rfl, fun va' hlow' hhigh' => ?_⟩
  have htranslate' := h.translate va' hlow' hhigh'
  rw [loadByte_of_translate ((hsame.translate va').trans htranslate'), loadByte_of_translate htranslate']
  by_cases hplace : place va' = place va
  · -- the same word: the byte, or another of its four
    have hword : (m.set (place va).1 (place va).2
        (setByte (m.phys (place va).1 (place va).2) (va % 4) b.toNat)).phys (place va').1
          (place va').2 = setByte (m.phys (place va).1 (place va).2) (va % 4) b.toNat := by
      rw [hplace]
      simp [Machine.set]
    have hquarter := h.apart va' va hlow' hhigh' hlow hhigh hplace
    rw [hword, byteOf_setByte (Nat.mod_lt _ (by decide)) (Nat.mod_lt _ (by decide)) b.toNat_lt, hplace]
    by_cases heq : va' = va
    · rw [if_pos heq, if_pos (by rw [heq]), UInt8.ofNat_toNat]
    · rw [if_neg heq, if_neg (by omega)]
  · have hne : va' ≠ va := by
      rintro rfl
      exact hplace rfl
    have hword : (m.set (place va).1 (place va).2
        (setByte (m.phys (place va).1 (place va).2) (va % 4) b.toNat)).phys (place va').1
          (place va').2 = m.phys (place va').1 (place va').2 := by
      by_cases hframe : (place va').1 = (place va).1
      · have hslot : (place va').2 ≠ (place va).2 := fun heq => hplace (Prod.ext hframe heq)
        rw [hframe]
        simp [Machine.set, hslot]
      · exact congrFun (Machine.phys_setFrame_of_ne hframe) _
    rw [hword, if_neg hne]

theorem Placed.copyBytes (hfits : dst + n ≤ 4294967296) (src : Mem) :
    ∃ m', copyBytes m dst n src = some m' ∧ SameTables m m' ∧ m'.pmm = m.pmm ∧
      ∀ k, k < n → loadByte m' (dst + k) = some (src k) := by
  have hloop : ∀ l, l ≤ n → ∃ m', Elf.copyBytes m dst l src = some m' ∧ SameTables m m' ∧
      m'.pmm = m.pmm ∧ ∀ k, k < l → loadByte m' (dst + k) = some (src k) := by
    intro l
    induction l with
    | zero => exact fun _ => ⟨m, rfl, SameTables.refl m, rfl, fun k hk => absurd hk (Nat.not_lt_zero k)⟩
    | succ l ih =>
      intro hl
      obtain ⟨m₁, hrun, hsame, hpmm, hbytes⟩ := ih (by omega)
      have hlow : dst ≤ dst + l := Nat.le_add_right dst l
      obtain ⟨m₂, hstore, hsame', hpmm', hload⟩ := (h.of_sameTables hsame).storeByte hlow (by omega) (src l)
      have hwrap : word32 (dst + l) = dst + l := Nat.mod_eq_of_lt (by omega)
      refine ⟨m₂, ?_, hsame.trans hsame', hpmm'.trans hpmm, fun k hk => ?_⟩
      · rw [Elf.copyBytes] at hrun ⊢
        rw [range_succ, foldlM_append, hrun]
        simp only [bind_eq_bind, bind_some, foldlM_cons, foldlM_nil, hwrap, hstore]
        rfl
      · rw [hload (dst + k) (by omega) (by omega)]
        by_cases heq : k = l
        · rw [if_pos (by omega), heq]
        · rw [if_neg (by omega), hbytes k (by omega)]
  exact hloop n le_rfl

end Copy

def writeBit (entry : Nat) : Prop := entry / 2 % 2 = 1

def UserWritable (m : Machine) (va : Nat) : Prop :=
  ∀ entry ∈ [m.pde (va / 4194304), m.pte (va / 4194304) (va / 4096 % 1024)],
    present entry ∧ writeBit entry ∧ userBit entry

/-- A directory that pages can be mapped in: `init_paging` leaves one, and `map_page` keeps it. -/
structure Ready (m : Machine) : Prop where
  layout : Layout m
  dir : Intact m m.dir
  writable : ∀ i, i < 128 → writeBit (m.pde i)

structure Mapping (m₀ m : Machine) (i j k : Nat) : Prop where
  ready : Ready m
  taken : Taken m₀.pmm m.pmm k
  structural : ∀ f, Structural m f ↔ Structural m₀ f
  user : 0 < k → userBit (m.pde i)
  page : ∀ l, l < k → ∃ f, Bitmap.test m₀.pmm.bitmap f = false ∧ freeBelow m₀.pmm f = l ∧
    m.pte i (j + l) = entryFor (f * 4096) 7

theorem writeBit_grantUser (h : writeBit entry) : writeBit (grantUser flags entry) := by
  unfold writeBit at h
  unfold writeBit grantUser userBit
  split <;> omega

theorem userBit_grantUser (h : userBit flags) : userBit (grantUser flags entry) := by
  unfold grantUser
  split
  · next hclear =>
      have hbit := hclear.2
      unfold userBit at hbit ⊢
      omega
  · next hset =>
      by_contra hbit
      exact hset ⟨h, hbit⟩

section Pages

variable {m₀ m : Machine} {i j k : Nat} (hlow : 32 ≤ i) (hhigh : i < 128)

include hlow hhigh

omit hlow hhigh in
theorem Ready.markUsed {f : Nat} (h : Ready m) (hf : f < totalBlocks)
    (hclear : Bitmap.test m.pmm.bitmap f = false) : Ready { m with pmm := m.pmm.markUsed f } :=
  { layout := h.layout.of_pde_eq rfl rfl (h.layout.booted.markUsed hf hclear)
      (fun g hg => by simp only [Pmm.State.markUsed, Bitmap.test_set, hg, Bool.or_true])
      (fun _ => rfl)
    dir := ⟨h.dir.range, h.dir.table, h.dir.page, h.dir.frame⟩
    writable := h.writable }

theorem Ready.mapped (h : Ready m) (entry : Nat) (hj : j < 1024) : Ready (mapped m i j entry 7) := by
  have htotal := Pmm.totalBlocks_eq
  have hdirBound := h.layout.dirTaken.1
  have hpresent := h.layout.low i hhigh
  have hi : i < 1024 ∧ i ≠ 1022 := by omega
  refine ⟨mapped_layout 7 h.layout hi hpresent j entry, ?_, fun l hl => ?_⟩
  · exact mapped_intact (f := m.dir) 7 h.layout hi hpresent j entry h.dir (by omega) (by omega)
  · rw [mapped_pde 7 h.layout hi hpresent]
    by_cases heq : l = i
    · subst heq
      rw [Function.update_self]
      exact writeBit_grantUser (h.writable l hl)
    · rw [Function.update_of_ne heq]
      exact h.writable l hl

theorem Mapping.step (h : Mapping m₀ m i j k) (hj : j + k < 1024) (hroom : k < freeBelow m₀.pmm totalBlocks) :
    ∃ f m', 0 < f ∧ Pmm.pmmAllocBlock m.pmm = (f * 4096, m.pmm.markUsed f) ∧
      mapPage { m with pmm := m.pmm.markUsed f } (f * 4096) (i * 4194304 + (j + k) * 4096) 7 =
        some (0, m') ∧
      Mapping m₀ m' i j (k + 1) := by
  obtain ⟨hfull, -⟩ | ⟨f, hf, hfree, hcount, hclear, halloc, htaken⟩ := h.taken.alloc
  · omega
  have hkernel : kernelPages = 512 := by decide
  have hbound := h.ready.layout.booted.kernelPages_le hclear
  have hmarked := h.ready.markUsed hf hclear
  have hpresent := hmarked.layout.low i hhigh
  have hi : i < 1024 ∧ i ≠ 1022 := by omega
  have htable : (i * 4194304 + (j + k) * 4096) / 4194304 = i := by omega
  have hentry : (i * 4194304 + (j + k) * 4096) / 4096 % 1024 = j + k := by omega
  have hva : i * 4194304 + (j + k) * 4096 < 0xC0000000 := by omega
  have hmap := mapPage_of_present (f * 4096) 7 hmarked.layout hmarked.dir (table_of_user hva)
    (by rw [htable]; exact hpresent)
  rw [htable, hentry] at hmap
  refine ⟨f, _, by omega, halloc, hmap, hmarked.mapped hlow hhigh _ hj, htaken, ?_, ?_, ?_⟩
  · exact fun g => (mapped_structural 7 hmarked.layout hi hpresent _ _ g).trans (h.structural g)
  · intro _
    rw [mapped_pde 7 hmarked.layout hi hpresent, Function.update_self]
    exact userBit_grantUser (by decide)
  · intro l hl
    rw [mapped_pte 7 hmarked.layout hi hpresent _ _ (by omega) (by omega) hpresent]
    by_cases heq : l = k
    · exact ⟨f, hfree, by rw [heq, hcount], by rw [if_pos ⟨rfl, by omega⟩]⟩
    · obtain ⟨g, hg, hgcount, hgpte⟩ := h.page l (by omega)
      refine ⟨g, hg, hgcount, ?_⟩
      rw [if_neg (by omega)]
      exact hgpte

theorem Mapping.mapSegment {n : Nat} (h : Mapping m₀ m i j k) (hj : j + k + n ≤ 1024)
    (hroom : k + n ≤ freeBelow m₀.pmm totalBlocks) :
    ∃ m', mapSegment 7 n (i * 4194304 + (j + k) * 4096) m = some (true, m') ∧ Mapping m₀ m' i j (k + n) := by
  induction n generalizing m k with
  | zero => exact ⟨m, rfl, h⟩
  | succ n ih =>
    obtain ⟨f, m', hpos, halloc, hmap, hnext⟩ := h.step hlow hhigh (by omega) (by omega)
    obtain ⟨m'', hrun, hdone⟩ := ih hnext (by omega) (by omega)
    refine ⟨m'', ?_, by rwa [show k + (n + 1) = k + 1 + n by omega]⟩
    have haddr : i * 4194304 + (j + k) * 4096 + 4096 = i * 4194304 + (j + (k + 1)) * 4096 := by omega
    rw [Elf.mapSegment, allocBlock, halloc]
    simp only [if_neg (show ¬f * 4096 = 0 by omega), hmap, bind_eq_bind, bind_some, haddr, hrun]
    rfl

omit hlow in
theorem Mapping.placed (h : Mapping m₀ m i j k) (hm₀ : Layout m₀) (hj : j + k ≤ 1024) :
    Placed m (i * 4194304 + j * 4096) (k * 4096) fun va =>
    (frameOf (m.pte i (va / 4096 % 1024)), va / 4 % 1024) := by
  have hpage : ∀ va, i * 4194304 + j * 4096 ≤ va → va < i * 4194304 + j * 4096 + k * 4096 →
      va / 4194304 % 1024 = i ∧ ∃ f, Bitmap.test m₀.pmm.bitmap f = false ∧
        freeBelow m₀.pmm f = va / 4096 % 1024 - j ∧
        m.pte i (va / 4096 % 1024) = entryFor (f * 4096) 7 := by
    intro va hva hva'
    refine ⟨by omega, ?_⟩
    obtain ⟨f, hf, hcount, hpte⟩ := h.page (va / 4096 % 1024 - j) (by omega)
    rw [show j + (va / 4096 % 1024 - j) = va / 4096 % 1024 by omega] at hpte
    exact ⟨f, hf, hcount, hpte⟩
  refine ⟨fun va hva hva' => ?_, fun va hva hva' => ?_, fun va va' hva hva' hvb hvb' heq => ?_⟩
  · obtain ⟨htable, f, -, -, hpte⟩ := hpage va hva hva'
    have hpresent : present (m.pte i (va / 4096 % 1024)) := by
      rw [hpte, present_entryFor]
    rw [translate_eq, htable, if_pos h.ready.layout.active, if_pos (h.ready.layout.low i hhigh),
      if_pos hpresent]
  · obtain ⟨-, f, hf, -, hpte⟩ := hpage va hva hva'
    rw [h.structural, hpte, frameOf_entryFor_frame]
    exact hm₀.not_structural_of_clear hf
  · obtain ⟨-, f, hf, hcount, hpte⟩ := hpage va hva hva'
    obtain ⟨-, f', hf', hcount', hpte'⟩ := hpage va' hvb hvb'
    simp only [hpte, hpte', frameOf_entryFor_frame, Prod.mk.injEq] at heq
    rw [heq.1, hcount'] at hcount
    omega

omit hlow in
theorem Mapping.userWritable (h : Mapping m₀ m i j k) (hj : j + k ≤ 1024) {va : Nat}
    (hva : i * 4194304 + j * 4096 ≤ va) (hva' : va < i * 4194304 + j * 4096 + k * 4096) :
    UserWritable m va := by
  have htable : va / 4194304 = i := by omega
  obtain ⟨f, -, -, hpte⟩ := h.page (va / 4096 % 1024 - j) (by omega)
  rw [show j + (va / 4096 % 1024 - j) = va / 4096 % 1024 by omega] at hpte
  rw [UserWritable, htable, hpte]
  simp only [forall_mem_cons, not_mem_nil, false_imp_iff, implies_true, and_true]
  refine ⟨⟨h.ready.layout.low i hhigh, h.ready.writable i hhigh, h.user (by omega)⟩, ?_, ?_, ?_⟩
  · rw [present_entryFor]
  · unfold writeBit entryFor
    omega
  · rw [userBit_entryFor]
    decide

end Pages

theorem Placed.sub {dst : Nat} {place : Nat → Nat × Nat}
    (h : Placed m dst n place) (dst' n' : Nat) (hlow : dst ≤ dst') (hhigh : dst' + n' ≤ dst + n) :
    Placed m dst' n' place :=
  { translate := fun va hva hva' => h.translate va (by omega) (by omega)
    plain := fun va hva hva' => h.plain va (by omega) (by omega)
    apart := fun va va' hva hva' hvb hvb' =>
      h.apart va va' (by omega) (by omega) (by omega) (by omega) }

theorem UserWritable.of_sameTables {m' : Machine} (hsame : SameTables m m')
    (hva : va < 4294967296) (h : UserWritable m va) : UserWritable m' va := by
  have hpresent : present (m.pde (va / 4194304)) := (h _ (by simp)).1
  unfold UserWritable at h ⊢
  rwa [hsame.pde, hsame.pte (by omega) hpresent]

def programPages (n : Nat) : Nat := (n + 4223) / 4096

theorem loadSegment_tcc (elf : Mem) (hmax : n ≤ 1048576) (hm : Ready m)
    (hroom : programPages n ≤ freeBelow m.pmm totalBlocks) :
    ∃ m', loadSegment elf (tccPhdr n) m = some (true, m') ∧
      (∀ k, k < n → loadByte m' (0x08048080 + k) = some (elf (84 + k))) ∧
      ∀ k, k < n → UserWritable m' (0x08048080 + k) := by
  unfold programPages at hroom
  have hstart : Mapping m m 32 72 0 :=
    { ready := hm
      taken := Taken.start hm.layout.booted
      structural := fun _ => Iff.rfl
      user := nofun
      page := nofun }
  obtain ⟨m₁, hmap, hmapping⟩ :=
    hstart.mapSegment (n := (n + 4223) / 4096) le_rfl (by decide) (by omega) (by omega)
  have hplaced := (hmapping.placed (by decide) hm.layout (by omega)).sub 0x08048080 n (by omega) (by omega)
  obtain ⟨m₂, hcopy, hsame, -, hbytes⟩ := hplaced.copyBytes (by omega) fun k => elf (word32 (84 + k))
  refine ⟨m₂, ?_, fun k hk => ?_, fun k hk => ?_⟩
  · have hend : word32 (0x08048080 + n + 4095) / 4096 * 4096 = 0x08048000 + (n + 4223) / 4096 * 4096 := by
      rw [word32, Nat.mod_eq_of_lt (by omega)]
      omega
    have hpages : (0x08048000 + (n + 4223) / 4096 * 4096 - 0x08048080 / 4096 * 4096) / 4096 =
        (n + 4223) / 4096 := by omega
    have hrun : mapSegment (phdrFlagsToPte 7) ((n + 4223) / 4096) (0x08048080 / 4096 * 4096) m =
      some (true, m₁) := hmap
    have hclear : copyBytes m₂ (0x08048080 + n) (n - n) (fun _ => 0) = some m₂ := by
      rw [Nat.sub_self]
      rfl
    rw [loadSegment, tccPhdr, if_neg (lt_irrefl n)]
    simp only [hend, hpages, hrun, bind_eq_bind, bind_some, Bool.not_true,
      Bool.false_eq_true, if_false, hcopy, hclear]
  · rw [hbytes k hk, word32, Nat.mod_eq_of_lt (by omega)]
  · exact (hmapping.userWritable (by decide) (by omega) (by omega) (by omega)).of_sameTables hsame (by omega)

/-- Every program of up to a megabyte loads, at the address it was compiled for. -/
theorem elfLoadWithArgs_generateElf32 (code : Mem) (n : Nat) (buf : Mem) (m : Machine)
    (hmax : n ≤ 1048576) (hm : Ready m) (hroom : programPages n ≤ freeBelow m.pmm totalBlocks) :
    ∃ m', elfLoadWithArgs (generateElf32 code n buf).1 m = some (0x08048080, m') ∧
      (∀ k, k < n → loadByte m' (0x08048080 + k) = some (code k)) ∧ ∀ k, k < n →
      UserWritable m' (0x08048080 + k) := by
  obtain ⟨m', hload, hbytes, hpages⟩ := loadSegment_tcc (generateElf32 code n buf).1 hmax hm hroom
  refine ⟨m', ?_, fun k hk => ?_, hpages⟩
  · have hident : ∀ k, k < 8 → (generateElf32 code n buf).1 k = elfIdent k :=
      fun k hk => generateElf32_ident code n buf hk
    have hsegments : loadSegments (generateElf32 code n buf).1 tccEhdr 1 0 m = some (true, m') := by
      have hphdr : phdrAt (generateElf32 code n buf).1 (word32 (tccEhdr.phoff + 0 * tccEhdr.phentsize)) =
          tccPhdr n := phdrAt_generateElf32 code n buf hmax
      have htype : (tccPhdr n).type = ptLoad := rfl
      rw [loadSegments, hphdr, if_pos htype, hload]
      rfl
    rw [elfLoadWithArgs, ehdrAt_generateElf32, hident 0 (by decide), hident 1 (by decide),
      hident 2 (by decide), hident 3 (by decide), hident 4 (by decide), hident 5 (by decide)]
    have hphnum : tccEhdr.phnum = 1 := rfl
    rw [hphnum, hsegments]
    rfl
  · rw [hbytes k hk, generateElf32_code code n buf hk]

theorem ready_initPaging {m₀ : Machine} (hboot : Boot m₀) (hinit : initPaging m₀ = some m) : Ready m := by
  have htotal := Pmm.totalBlocks_eq
  have hkernel : kernelPages = 512 := by decide
  have hs := hboot.started hinit
  have hlow := hs.dirLow
  refine ⟨hs.layout, hs.intact m.dir (by omega) (.inl hlow), fun i hi => ?_⟩
  obtain ⟨f, hf⟩ := initPaging_pde hboot.off hboot.kernel hboot.booted hinit hi
  rw [hf]
  unfold writeBit entryFor
  omega

/-- An `int 0x80` and a `ret`, loaded right after boot. -/
theorem elfLoadWithArgs_generateElf32_ret : ∃ m m', initPaging bootMachine = some m ∧
      elfLoadWithArgs (generateElf32 (fun k => [0xCD, 0x80, 0xC3].getD k 0) 3 fun _ => 0).1 m =
        some (0x08048080, m') ∧
      loadByte m' 0x08048080 = some 0xCD ∧ loadByte m' 0x08048082 = some 0xC3 ∧
      UserWritable m' 0x08048082 := by
  obtain ⟨m, hinit, hs⟩ := bootMachine_started
  have hclear : Bitmap.test m.pmm.bitmap 641 = false := (heap_clear_iff hs (by decide)).mpr le_rfl
  have hroom : programPages 3 ≤ freeBelow m.pmm totalBlocks := by
    have hone : freeBelow m.pmm 642 ≤ freeBelow m.pmm totalBlocks := Nat.count_monotone _ (by decide)
    rw [Pmm.freeBelow_succ, if_pos hclear] at hone
    have hpages : programPages 3 = 1 := by decide
    omega
  obtain ⟨m', hload, hbytes, hpages⟩ := elfLoadWithArgs_generateElf32 _ 3 (fun _ => 0) m
    (by decide) (ready_initPaging bootMachine_boot hinit) hroom
  exact ⟨m, m', hinit, hload, hbytes 0 (by decide), hbytes 2 (by decide), hpages 2 (by decide)⟩

end JexOs.Elf
