import JexOs.Proof.PagingRun

/-!
# The pages `map_page` changes

A page has what both levels allow. The first page of a table brings two others with it: the identity page of the
frame that becomes the table is taken away, and entry 0 of the new table maps the table itself.
-/

namespace JexOs.Paging

open Pmm (Booted totalBlocks)
open Option Function

def writeBit (entry : Nat) : Prop := entry / 2 % 2 = 1

instance (entry : Nat) : Decidable (writeBit entry) := inferInstanceAs (Decidable (_ = _))

structure Page where
  phys : Nat
  writable : Bool
  user : Bool
  deriving DecidableEq

def Machine.page (m : Machine) (va : Nat) : Option Page :=
  let pde := m.pde (va / 4194304)
  let pte := m.pte (va / 4194304) (va / 4096 % 1024)
  if present pde ∧ present pte then
    some
      { phys := frameOf pte * 4096
        writable := decide (writeBit pde ∧ writeBit pte)
        user := decide (userBit pde ∧ userBit pte) }
  else none

/-- The page at this address is the identity page of a frame that the call has taken. -/
def TakenBetween (m m' : Machine) (va : Nat) : Prop := Free m (va / 4096) ∧ ¬ Free m' (va / 4096)

/-- The page is entered with the flags given, and the other pages stay, but for the identity page of a new table. -/
structure MapsOnly (m : Machine) (phys va flags : Nat) (m' : Machine) : Prop where
  page : m'.page va =
    if present flags then
      some
        { phys := phys
          writable := decide (writeBit flags)
          user := decide (userBit flags) }
    else none
  others : ∀ va', va' < 0xC0000000 → va' % 4096 = 0 → va' ≠ va → ¬ TakenBetween m m' va' →
    m'.page va' = m.page va'
  table : ∀ va', va' < 0xC0000000 → va' % 4096 = 0 → va' ≠ va → TakenBetween m m' va' → m'.page va' = none

/-- The frame is a whole page, and a table that is missing is made for its first page. -/
structure EntersCleanly (m : Machine) (phys va flags : Nat) : Prop where
  aligned : present flags → phys % 4096 = 0
  writable : present (m.pde (va / 4194304)) → present flags → writeBit flags → writeBit (m.pde (va / 4194304))
  first : ¬ present (m.pde (va / 4194304)) → va / 4096 % 1024 = 0

def Opened (m : Machine) : Prop :=
  ∀ i j, i < 1024 → i ≠ 1022 → j < 1024 → present (m.pde i) → UserPte m i j → userBit (m.pde i)

section Entries

variable {m m' : Machine} {phys va flags : Nat}

theorem writeBit_entryFor (phys flags : Nat) : writeBit (entryFor phys flags) ↔ writeBit flags := by
  unfold writeBit entryFor
  omega

theorem writeBit_grantUser (flags entry : Nat) : writeBit (grantUser flags entry) ↔ writeBit entry := by
  unfold grantUser writeBit userBit
  split <;> omega

theorem userBit_grantUser (flags entry : Nat) :
    userBit (grantUser flags entry) ↔ userBit entry ∨ userBit flags := by
  unfold grantUser
  by_cases hflags : userBit flags
  · by_cases hentry : userBit entry
    · rw [if_neg fun h => h.2 hentry]
      exact ⟨.inl, fun _ => hentry⟩
    · rw [if_pos ⟨hflags, hentry⟩]
      refine ⟨fun _ => .inr hflags, fun _ => ?_⟩
      unfold userBit at *
      omega
  · rw [if_neg fun h => hflags h.1]
    exact ⟨.inl, fun h => h.resolve_right hflags⟩

theorem not_present_half (entry : Nat) : ¬ present (entry / 2 * 2) := by
  unfold present
  omega

theorem page_of_absent (h : ¬ present (m.pde (va / 4194304))) : m.page va = none :=
  if_neg fun hboth => h hboth.1

theorem page_congr (hpde : m'.pde (va / 4194304) = m.pde (va / 4194304))
    (hpte : present (m.pde (va / 4194304)) →
      m'.pte (va / 4194304) (va / 4096 % 1024) = m.pte (va / 4194304)
      (va / 4096 % 1024)) : m'.page va = m.page va := by
  by_cases hpresent : present (m.pde (va / 4194304))
  · unfold Machine.page
    rw [hpde, hpte hpresent]
  · rw [page_of_absent hpresent, page_of_absent (hpde ▸ hpresent)]

theorem cell_ne {va va' : Nat} (ha : va % 4096 = 0) (ha' : va' % 4096 = 0) (hne : va' ≠ va) :
    ¬ (va' / 4194304 = va / 4194304 ∧ va' / 4096 % 1024 = va / 4096 % 1024) := by
  rintro ⟨htable, hentry⟩
  omega

end Entries

section InPlace

variable {m : Machine} {phys va flags : Nat} (hm : Layout m) (hopened : Opened m)
  (hva : va / 4194304 < 1024 ∧ va / 4194304 ≠ 1022) (hpresent : present (m.pde (va / 4194304)))

include hm hva hpresent

theorem mapped_page_self : (mapped m (va / 4194304) (va / 4096 % 1024) (entryFor phys flags) flags).page va =
    if present flags then
      some
        { phys := phys / 4096 * 4096
          writable := decide (writeBit (m.pde (va / 4194304)) ∧ writeBit flags)
          user := decide (userBit flags) }
    else none := by
  have hpte := mapped_pte flags hm hva hpresent (va / 4096 % 1024) (entryFor phys flags) hva.1 hva.2 hpresent
    (va / 4096 % 1024)
  rw [if_pos ⟨rfl, rfl⟩] at hpte
  have huser : (userBit (m.pde (va / 4194304)) ∨ userBit flags) ∧ userBit flags ↔ userBit flags :=
    ⟨And.right, fun h => ⟨.inr h, h⟩⟩
  unfold Machine.page
  rw [mapped_pde flags hm hva hpresent, update_self, hpte]
  simp only [present_grantUser, present_entryFor, writeBit_grantUser, writeBit_entryFor, userBit_grantUser,
    userBit_entryFor, frameOf_entryFor, hpresent, true_and, huser]
  rfl

include hopened

theorem mapped_page_other {va' : Nat} (hva' : va' / 4194304 < 1024 ∧ va' / 4194304 ≠ 1022)
    (hcell : ¬ (va' / 4194304 = va / 4194304 ∧ va' / 4096 % 1024 = va / 4096 % 1024)) :
    (mapped m (va / 4194304) (va / 4096 % 1024) (entryFor phys flags) flags).page va' = m.page va' := by
  have hpde := mapped_pde flags hm hva hpresent (va / 4096 % 1024) (entryFor phys flags) (va' / 4194304)
  have hpte := fun hkp => mapped_pte flags hm hva hpresent (va / 4096 % 1024) (entryFor phys flags)
    hva'.1 hva'.2 hkp
    (va' / 4096 % 1024)
  simp only [if_neg hcell] at hpte
  by_cases htable : va' / 4194304 = va / 4194304
  · -- the table may be opened to user mode, which matters to no page of it
    rw [htable, update_self] at hpde
    unfold Machine.page
    rw [htable] at hpte ⊢
    rw [hpde, hpte hpresent]
    by_cases hpage : present (m.pte (va / 4194304) (va' / 4096 % 1024))
    · have huser : (userBit (m.pde (va / 4194304)) ∨ userBit flags) ∧
          userBit (m.pte (va / 4194304) (va' / 4096 % 1024)) ↔
          userBit (m.pde (va / 4194304)) ∧ userBit (m.pte (va / 4194304) (va' / 4096 % 1024)) :=
        and_congr_left fun hbit => or_iff_left_of_imp fun _ =>
          hopened _ _ hva.1 hva.2 (Nat.mod_lt _ (by decide)) hpresent ⟨hpage, hbit⟩
      simp only [present_grantUser, writeBit_grantUser, userBit_grantUser, huser]
    · rw [if_neg fun h => hpage h.2, if_neg fun h => hpage h.2]
  · rw [update_of_ne htable] at hpde
    exact page_congr hpde hpte

theorem mapped_opened : Opened (mapped m (va / 4194304) (va / 4096 % 1024) (entryFor phys flags) flags) := by
  intro k l hk hkne hl hkp huser
  have hkp' := (mapped_present flags hm hva hpresent (va / 4096 % 1024) (entryFor phys flags) k).1.mp hkp
  have hpte := mapped_pte flags hm hva hpresent (va / 4096 % 1024) (entryFor phys flags) hk hkne hkp' l
  unfold UserPte at huser
  rw [hpte] at huser
  rw [mapped_pde flags hm hva hpresent]
  by_cases htable : k = va / 4194304
  · rw [htable, update_self, userBit_grantUser]
    by_cases hcell : k = va / 4194304 ∧ l = va / 4096 % 1024
    · rw [if_pos hcell, userBit_entryFor] at huser
      exact .inr huser.2
    · rw [if_neg hcell] at huser
      exact .inl (htable ▸ hopened k l hk hkne hl hkp' huser)
  · rw [update_of_ne htable]
    rw [if_neg fun h => htable h.1] at huser
    exact hopened k l hk hkne hl hkp' huser

end InPlace

section NewTable

variable {m : Machine} {f i flags : Nat} (hm : Layout m) (hf : f < totalBlocks)
  (hclear : Bitmap.test m.pmm.bitmap f = false)

include hm hf hclear

theorem withTable_pte {k : Nat} (hk : k < 1024 ∧ k ≠ 1022) (hki : k ≠ i) (hkp : present (m.pde k)) (l : Nat) :
    (withTable m f i flags).pte k l = if k = f / 1024 ∧ l = f % 1024 then m.pte k l / 2 * 2
      else m.pte k l := by
  have htotal := Pmm.totalBlocks_eq
  have hfilled := hm.fill hf hclear (selfMapped f (m.phys f))
  have hlow := hfilled.low (f / 1024) (by omega)
  have hfillPte := fun {k} (hk : k < 1024) (hkp : present (m.pde k)) (l : Nat) =>
    hm.fill_pte hclear (selfMapped f (m.phys f)) hk hkp l
  have hfillPde := hm.fill_pde hclear (selfMapped f (m.phys f)) k
  have hunmapped := hfilled.pte_set_table (i := f / 1024) (k := k) (by omega) hk.1 (by omega) hk.2 hlow
    (by rwa [hfillPde]) (f % 1024) l ((fill m f (selfMapped f (m.phys f))).pte (f / 1024) (f % 1024) / 2 * 2)
  have hsame : (withTable m f i flags).pte k l =
      (unmapIdentity (fill m f (selfMapped f (m.phys f))) f).pte k l := by
    have hpde : (unmapIdentity (fill m f (selfMapped f (m.phys f))) f).pde k = m.pde k :=
      (hfilled.set_table_pde (by omega) (by omega) hlow _ _ k).trans hfillPde
    unfold Machine.pte
    rw [withTable_pde hm hf hclear, update_of_ne hki, hpde]
    exact congrFun (Machine.phys_setFrame_of_ne (hm.outside k hk.1 hk.2 hkp)) l
  rw [hsame]
  unfold unmapIdentity
  rw [hunmapped, hfillPte (by omega) (hm.low _ (by omega)), hfillPte hk.1 hkp]
  by_cases hcell : k = f / 1024 ∧ l = f % 1024
  · rw [if_pos hcell, if_pos hcell, hcell.1, hcell.2]
  · rw [if_neg hcell, if_neg hcell]

theorem withTable_pte_self (l : Nat) : (withTable m f i flags).pte i l = selfMapped f (m.phys f) l := by
  have htotal := Pmm.totalBlocks_eq
  have hother : frameOf (m.pde (f / 1024)) ≠ f :=
    hm.table_ne_of_clear hclear (by omega) (by omega) (hm.low _ (by omega))
  have hfillPde := hm.fill_pde hclear (selfMapped f (m.phys f)) (f / 1024)
  unfold Machine.pte
  rw [withTable_pde hm hf hclear, update_self, frameOf_entryFor_frame]
  calc (withTable m f i flags).phys f l
      = (unmapIdentity (fill m f (selfMapped f (m.phys f))) f).phys f l :=
        congrFun (Machine.phys_setFrame_of_ne (hm.ne_dir_of_clear hclear)) l
    _ = (fill m f (selfMapped f (m.phys f))).phys f l := by
        unfold unmapIdentity
        rw [hfillPde]
        exact congrFun (Machine.phys_setFrame_of_ne (Ne.symm hother)) l
    _ = selfMapped f (m.phys f) l := congrFun (Machine.phys_setFrame_same _ _ _) l

end NewTable

def newlyMapped (m : Machine) (f i j entry flags : Nat) : Machine := (withTable m f i flags).set f j entry

section NewPage

variable {m : Machine} {f va flags : Nat} (phys : Nat) (hm : Layout m) (hf : f < totalBlocks)
  (hclear : Bitmap.test m.pmm.bitmap f = false) (hodd : present flags)
  (hva : va / 4194304 < 1024 ∧ va / 4194304 ≠ 1022) (habsent : ¬ present (m.pde (va / 4194304)))

include hf hclear

theorem newlyMapped_taken (i j entry flags va' : Nat) :
    TakenBetween m (newlyMapped m f i j entry flags) va' ↔ va' / 4096 = f := by
  have hbits : ∀ g, Bitmap.test (newlyMapped m f i j entry flags).pmm.bitmap g =
      (decide (g = f) || Bitmap.test m.pmm.bitmap g) := fun g => Bitmap.test_set m.pmm.bitmap f g
  unfold TakenBetween Free
  rw [hbits]
  constructor
  · rintro ⟨⟨hlow, hfree⟩, htaken⟩
    by_contra hne
    exact htaken ⟨hlow, by rw [decide_eq_false hne, hfree, Bool.false_or]⟩
  · intro heq
    rw [heq]
    exact ⟨⟨hf, hclear⟩, fun h => by simp at h⟩

include hm

theorem newlyMapped_pde (i j entry flags k : Nat) :
    (newlyMapped m f i j entry flags).pde k = Function.update m.pde i (entryFor (f * 4096) flags) k := by
  rw [← withTable_pde hm hf hclear]
  exact Machine.pde_setFrame (m := withTable m f i flags) (hm.ne_dir_of_clear hclear) k

include hodd hva

theorem newlyMapped_pte {k : Nat} (hk : k < 1024 ∧ k ≠ 1022)
    (hkp : present (Function.update m.pde (va / 4194304) (entryFor (f * 4096) flags) k)) (l : Nat) :
    (newlyMapped m f (va / 4194304) (va / 4096 % 1024) (entryFor phys flags) flags).pte k l =
      if k = va / 4194304 ∧ l = va / 4096 % 1024 then entryFor phys flags
      else (withTable m f (va / 4194304) flags).pte k l := by
  have hself : (withTable m f (va / 4194304) flags).pde (va / 4194304) = entryFor (f * 4096) flags := by
    rw [withTable_pde hm hf hclear, update_self]
  have hset := (hm.withTable flags hf hclear hva hodd).pte_set_table hva.1 hk.1 hva.2 hk.2
    (by rwa [hself, present_entryFor]) (by rwa [withTable_pde hm hf hclear]) (va / 4096 % 1024) l
    (entryFor phys flags)
  rw [hself, frameOf_entryFor_frame] at hset
  exact hset

theorem newlyMapped_layout :
    Layout (newlyMapped m f (va / 4194304) (va / 4096 % 1024) (entryFor phys flags) flags) := by
  have hself : (withTable m f (va / 4194304) flags).pde (va / 4194304) = entryFor (f * 4096) flags := by
    rw [withTable_pde hm hf hclear, update_self]
  have hset := (hm.withTable flags hf hclear hva hodd).set_table hva (by rwa [hself, present_entryFor])
    (va / 4096 % 1024) (entryFor phys flags)
  rwa [hself, frameOf_entryFor_frame] at hset

theorem newlyMapped_page_self :
    (newlyMapped m f (va / 4194304) (va / 4096 % 1024) (entryFor phys flags) flags).page va = some
        { phys := phys / 4096 * 4096
          writable := decide (writeBit flags)
          user := decide (userBit flags) } := by
  have hnew : present (Function.update m.pde (va / 4194304) (entryFor (f * 4096) flags) (va / 4194304)) := by
    rw [update_self, present_entryFor]
    exact hodd
  have hpte := newlyMapped_pte phys hm hf hclear hodd hva hva hnew (va / 4096 % 1024)
  rw [if_pos ⟨rfl, rfl⟩] at hpte
  have heven : flags % 2 = 1 := hodd
  unfold Machine.page
  rw [newlyMapped_pde hm hf hclear, update_self, hpte]
  simp only [present_entryFor, writeBit_entryFor, userBit_entryFor, frameOf_entryFor, and_self, if_pos heven]

theorem newlyMapped_page_first {va' : Nat} (htable : va' / 4194304 = va / 4194304)
    (hne : va' / 4096 % 1024 ≠ va / 4096 % 1024) :
    ((newlyMapped m f (va / 4194304) (va / 4096 % 1024) (entryFor phys flags) flags).page va' = none ↔
      va' / 4096 % 1024 ≠ 0) := by
  have hnew : present (Function.update m.pde (va / 4194304) (entryFor (f * 4096) flags) (va / 4194304)) := by
    rw [update_self, present_entryFor]
    exact hodd
  have hpte := newlyMapped_pte phys hm hf hclear hodd hva hva hnew (va' / 4096 % 1024)
  rw [if_neg fun h => hne h.2, withTable_pte_self hm hf hclear] at hpte
  unfold Machine.page
  rw [htable, newlyMapped_pde hm hf hclear, hpte]
  by_cases hfirst : va' / 4096 % 1024 = 0
  · have hself : present (selfMapped f (m.phys f) (va' / 4096 % 1024)) := by
      unfold selfMapped
      rw [hfirst, update_self, present_entryFor]
    rw [if_pos ⟨hnew, hself⟩]
    exact ⟨nofun, fun h => absurd hfirst h⟩
  · rw [if_neg fun h => ?_]
    · exact ⟨fun _ => hfirst, fun _ => rfl⟩
    · have hzero := h.2
      unfold selfMapped at hzero
      rw [update_of_ne hfirst, firstWords_of_lt (Nat.mod_lt _ (by decide))] at hzero
      exact absurd hzero (by decide)

theorem newlyMapped_page_other {va' : Nat} (hva' : va' / 4194304 < 1024 ∧ va' / 4194304 ≠ 1022)
    (htable : va' / 4194304 ≠ va / 4194304) :
    (newlyMapped m f (va / 4194304) (va / 4096 % 1024) (entryFor phys flags) flags).page va' =
      if va' / 4096 = f then none else m.page va' := by
  have hpde := newlyMapped_pde hm hf hclear (va / 4194304) (va / 4096 % 1024) (entryFor phys flags) flags
    (va' / 4194304)
  rw [update_of_ne htable] at hpde
  have hcell : va' / 4194304 = f / 1024 ∧ va' / 4096 % 1024 = f % 1024 ↔ va' / 4096 = f := by
    constructor
    · rintro ⟨hdiv, hmod⟩
      omega
    · rintro rfl
      omega
  by_cases hkp : present (m.pde (va' / 4194304))
  · have hpte := newlyMapped_pte phys hm hf hclear hodd hva hva'
      (by rwa [update_of_ne htable]) (va' / 4096 % 1024)
    rw [if_neg fun h => htable h.1, withTable_pte hm hf hclear hva' htable hkp] at hpte
    by_cases hframe : va' / 4096 = f
    · rw [if_pos (hcell.mpr hframe)] at hpte
      rw [if_pos hframe]
      refine if_neg fun h => not_present_half (m.pte (va' / 4194304) (va' / 4096 % 1024)) ?_
      rw [← hpte]
      exact h.2
    · rw [if_neg fun h => hframe (hcell.mp h)] at hpte
      rw [if_neg hframe]
      exact page_congr hpde fun _ => hpte
  · rw [page_of_absent (by rwa [hpde]), page_of_absent hkp, ite_self]

theorem newlyMapped_opened (hopened : Opened m) :
    Opened (newlyMapped m f (va / 4194304) (va / 4096 % 1024) (entryFor phys flags) flags) := by
  intro k l hk hkne hl hkp huser
  have hpde := newlyMapped_pde hm hf hclear (va / 4194304) (va / 4096 % 1024) (entryFor phys flags) flags k
  rw [hpde] at hkp ⊢
  have hpte := newlyMapped_pte phys hm hf hclear hodd hva ⟨hk, hkne⟩ hkp l
  unfold UserPte at huser
  rw [hpte] at huser
  by_cases htable : k = va / 4194304
  · subst htable
    rw [update_self, userBit_entryFor]
    by_cases hcell : l = va / 4096 % 1024
    · rw [if_pos ⟨rfl, hcell⟩, userBit_entryFor] at huser
      exact huser.2
    · rw [if_neg fun h => hcell h.2, withTable_pte_self hm hf hclear] at huser
      exact absurd huser.2 (not_userBit_selfMapped f _ hl)
  · rw [update_of_ne htable] at hkp ⊢
    rw [if_neg fun h => htable h.1, withTable_pte hm hf hclear ⟨hk, hkne⟩ htable hkp] at huser
    refine hopened k l hk hkne hl hkp ?_
    split at huser
    · exact absurd huser.1 (not_present_half _)
    · exact huser

end NewPage

section MapPage

variable {m m' : Machine} {phys va flags : Nat} (hm : Layout m) (hopened : Opened m) (hva : va < 0xC0000000)
  (haligned : va % 4096 = 0)

include hm hopened hva haligned

theorem mapped_mapsOnly_iff (hpresent : present (m.pde (va / 4194304))) :
    MapsOnly m phys va flags (mapped m (va / 4194304) (va / 4096 % 1024) (entryFor phys flags) flags) ↔
      EntersCleanly m phys va flags := by
  have htable := table_of_user hva
  have hself := @mapped_page_self m phys va flags hm htable hpresent
  have hquiet : ∀ va', ¬ TakenBetween m
      (mapped m (va / 4194304) (va / 4096 % 1024) (entryFor phys flags) flags) va' :=
    fun va' h => h.2 h.1
  constructor
  · intro hmaps
    have hpage := hself.symm.trans hmaps.page
    by_cases hodd : present flags
    · rw [if_pos hodd, if_pos hodd, some.injEq, Page.mk.injEq, decide_eq_decide] at hpage
      obtain ⟨hphys, hwrite, -⟩ := hpage
      exact ⟨fun _ => by omega, fun _ _ hbit => (hwrite.mpr hbit).1, fun habsent => absurd hpresent habsent⟩
    · exact ⟨fun h => absurd h hodd, fun _ h => absurd h hodd, fun habsent => absurd hpresent habsent⟩
  · rintro ⟨hphys, hwrite, -⟩
    refine ⟨?_, fun va' hva' haligned' hne _ => ?_, fun va' _ _ _ htaken => absurd htaken (hquiet va')⟩
    · rw [hself]
      by_cases hodd : present flags
      · have hmultiple := hphys hodd
        rw [if_pos hodd, if_pos hodd, some.injEq, Page.mk.injEq, decide_eq_decide]
        exact ⟨by omega, ⟨And.right, fun hbit => ⟨hwrite hpresent hodd hbit, hbit⟩⟩, rfl⟩
      · rw [if_neg hodd, if_neg hodd]
    · exact mapped_page_other hm hopened htable hpresent (table_of_user hva') (cell_ne haligned haligned' hne)

omit hopened in
theorem newlyMapped_mapsOnly_iff {f : Nat} (hf : f < totalBlocks) (hclear : Bitmap.test m.pmm.bitmap f = false)
    (hodd : present flags) (habsent : ¬ present (m.pde (va / 4194304))) :
    MapsOnly m phys va flags (newlyMapped m f (va / 4194304) (va / 4096 % 1024) (entryFor phys flags) flags) ↔
      EntersCleanly m phys va flags := by
  have htable := table_of_user hva
  have htotal := Pmm.totalBlocks_eq
  have hself := newlyMapped_page_self phys hm hf hclear hodd htable
  have htaken := newlyMapped_taken hf hclear (va / 4194304) (va / 4096 % 1024) (entryFor phys flags) flags
  have hhigh : 128 ≤ va / 4194304 := by
    by_contra hlow
    exact habsent (hm.low _ (by omega))
  constructor
  · intro hmaps
    refine ⟨fun _ => ?_, fun hpresent => absurd hpresent habsent, fun _ => ?_⟩
    · have hpage := hself.symm.trans hmaps.page
      rw [if_pos hodd, some.injEq, Page.mk.injEq] at hpage
      omega
    · by_contra hfirst
      have hother := hmaps.others (va / 4194304 * 4194304) (by omega) (by omega) (by omega)
        (fun h => by have := (htaken _).mp h; omega)
      have hsame : va / 4194304 * 4194304 / 4194304 = va / 4194304 := Nat.mul_div_cancel _ (by decide)
      have hbefore : m.page (va / 4194304 * 4194304) = none := page_of_absent (by rwa [hsame])
      exact (newlyMapped_page_first phys hm hf hclear hodd htable hsame (by omega)).mp
        (hother.trans hbefore) (by omega)
  · rintro ⟨hphys, -, hfirst⟩
    have hmultiple := hphys hodd
    have hzero := hfirst habsent
    refine ⟨?_, fun va' hva' haligned' hne hkept => ?_, fun va' hva' haligned' hne hgone => ?_⟩
    · rw [hself, if_pos hodd, some.injEq, Page.mk.injEq]
      exact ⟨by omega, rfl, rfl⟩
    · by_cases hsame : va' / 4194304 = va / 4194304
      · have hbefore : m.page va' = none := page_of_absent (by rwa [hsame])
        rw [hbefore]
        exact (newlyMapped_page_first phys hm hf hclear hodd htable hsame (by omega)).mpr (by omega)
      · rw [newlyMapped_page_other phys hm hf hclear hodd htable (table_of_user hva') hsame,
          if_neg fun heq => hkept ((htaken va').mpr heq)]
    · have hframe := (htaken va').mp hgone
      rw [newlyMapped_page_other phys hm hf hclear hodd htable (table_of_user hva') (by omega), if_pos hframe]

end MapPage

/-- The calls that change the current directory's pages. -/
inductive PageCall where
  | mapPage (phys va flags : Nat)
  | unmapPage (va : Nat)

def PageCall.run (m : Machine) : PageCall → Option Machine
  | .mapPage phys va flags => (Paging.mapPage m phys va flags).map Prod.snd
  | .unmapPage va => pagingUnmapPage m va

/-- The call finds the identity pages it uses, and does not go for the recursive table. -/
def PageCall.Safe (m : Machine) : PageCall → Prop
  | .mapPage phys va flags =>
    (va / 4194304 < 1024 ∧ va / 4194304 ≠ 1022) ∧ (Call.mapPage phys va flags).Safe m
  | .unmapPage va => (va / 4194304 < 1024 ∧ va / 4194304 ≠ 1022) ∧ Intact m m.dir

def PageStep (m m' : Machine) : Prop := ∃ c : PageCall, c.Safe m ∧ c.run m = some m'

theorem unmapPage_cases {m m' : Machine} {va : Nat} (hm : Layout m) (hdir : Intact m m.dir)
    (hva : va / 4194304 < 1024 ∧ va / 4194304 ≠ 1022) (hrun : pagingUnmapPage m va = some m') :
    m' = m ∨ (present (m.pde (va / 4194304)) ∧ m' = m.set (frameOf (m.pde (va / 4194304))) (va / 4096 % 1024)
        (m.pte (va / 4194304) (va / 4096 % 1024) / 2 * 2)) := by
  have hj : va / 4096 % 1024 < 1024 := Nat.mod_lt _ (by decide)
  unfold pagingUnmapPage at hrun
  rw [hm.load_pde hdir hva.1] at hrun
  simp only [bind_eq_bind, bind_some] at hrun
  by_cases hpresent : present (m.pde (va / 4194304))
  · have hload := load_of_translate (hm.window hva.1 hpresent hj)
    rw [Nat.mul_comm 4] at hload
    rw [if_neg (not_not_intro hpresent), hload, bind_some] at hrun
    have hstore := hm.store_pte hva.1 hj hpresent (m.pte (va / 4194304) (va / 4096 % 1024) / 2 * 2)
    exact .inr ⟨hpresent, some.inj (hrun.symm.trans hstore)⟩
  · rw [if_pos hpresent] at hrun
    exact .inl (some.inj hrun).symm

theorem PageStep.keeps {m m' : Machine} (hstep : PageStep m m') (hm : Layout m) (hopened : Opened m) :
    Layout m' ∧ Opened m' := by
  obtain ⟨c, hsafe, hrun⟩ := hstep
  cases c with
  | mapPage phys va flags =>
    obtain ⟨hva, hdir, hnew⟩ := hsafe
    obtain ⟨⟨r, m''⟩, hmap, rfl⟩ := map_eq_some_iff.mp hrun
    obtain ⟨hpresent, rfl⟩ | ⟨-, -, rfl⟩ | ⟨-, hodd, f, hf, hclear, rfl⟩ :=
      mapPage_cases _ _ hm hdir hva
        (fun habsent f hf hclear hlowest => hnew habsent f ⟨hf, hclear⟩ hlowest) hmap
    · exact ⟨mapped_layout _ hm hva hpresent _ _, mapped_opened hm hopened hva hpresent⟩
    · exact ⟨hm, hopened⟩
    · exact ⟨newlyMapped_layout phys hm hf hclear hodd hva,
        newlyMapped_opened phys hm hf hclear hodd hva hopened⟩
  | unmapPage va =>
    obtain ⟨hva, hdir⟩ := hsafe
    obtain rfl | ⟨hpresent, rfl⟩ := unmapPage_cases hm hdir hva hrun
    · exact ⟨hm, hopened⟩
    · refine ⟨hm.set_table hva hpresent _ _, fun k l hk hkne hl hkp huser => ?_⟩
      rw [hm.set_table_pde hva.1 hva.2 hpresent] at hkp ⊢
      unfold UserPte at huser
      rw [hm.pte_set_table hva.1 hk hva.2 hkne hpresent hkp] at huser
      refine hopened k l hk hkne hl hkp ?_
      split at huser
      · exact absurd huser.1 (not_present_half _)
      · exact huser

theorem pageSteps_keep {m m' : Machine} (hrun : Relation.ReflTransGen PageStep m m') (hm : Layout m)
    (hopened : Opened m) : Layout m' ∧ Opened m' := by
  induction hrun with
  | refl => exact ⟨hm, hopened⟩
  | tail _ hstep ih => exact hstep.keeps ih.1 ih.2

theorem Started.opened {m₀ m : Machine} (h : Started m₀ m) : Opened m :=
  fun i j hi _ hj hpresent huser => absurd huser.2 (h.kernelPte i hi hpresent j hj)

/-- **The frame law of `map_page`.** A page is entered as asked and no other page changes, if and only if it is
entered cleanly. -/
theorem mapPage_mapsOnly_iff {m₀ m₁ m m' : Machine} {phys va flags : Nat} (hboot : Boot m₀)
    (hinit : initPaging m₀ = some m₁) (hrun : Relation.ReflTransGen PageStep m₁ m)
    (hsafe : (PageCall.mapPage phys va flags).Safe m) (hva : va < 0xC0000000) (haligned : va % 4096 = 0)
    (hmap : mapPage m phys va flags = some (0, m')) :
    MapsOnly m phys va flags m' ↔ EntersCleanly m phys va flags := by
  have hstarted := hboot.started hinit
  obtain ⟨hm, hopened⟩ := pageSteps_keep hrun hstarted.layout hstarted.opened
  obtain ⟨htable, hdir, hnew⟩ := hsafe
  obtain ⟨hpresent, rfl⟩ | ⟨-, hfail, -⟩ | ⟨habsent, hodd, f, hf, hclear, rfl⟩ :=
    mapPage_cases _ _ hm hdir htable
      (fun habsent f hf hclear hlowest => hnew habsent f ⟨hf, hclear⟩ hlowest) hmap
  · exact mapped_mapsOnly_iff hm hopened hva haligned hpresent
  · exact absurd hfail (by decide)
  · exact newlyMapped_mapsOnly_iff hm hva haligned hf hclear hodd habsent

/-- The second page of the heap is entered for reading, in a table that is in place. -/
theorem mapPage_mapsOnly_iff_heap : ∃ m₁ m', initPaging bootMachine = some m₁ ∧
    mapPage m₁ (641 * 4096) 0x1001000 5 = some (0, m') ∧
      MapsOnly m₁ (641 * 4096) 0x1001000 5 m' := by
  obtain ⟨m₁, hinit, hs⟩ := bootMachine_started
  have hpresent : present (m₁.pde (0x1001000 / 4194304)) := hs.layout.low 4 (by decide)
  have hdir : Intact m₁ m₁.dir := by
    rw [show m₁.dir = 300 from hs.dir]
    exact hs.intact 300 (by decide) (.inl (by decide))
  have hmap := mapPage_of_present (641 * 4096) 5 hs.layout hdir (table_of_user (by decide)) hpresent
  refine ⟨m₁, _, hinit, hmap, ?_⟩
  refine (mapPage_mapsOnly_iff bootMachine_boot hinit .refl
    ⟨by decide, hdir, fun habsent => absurd hpresent habsent⟩ (by decide) (by decide) hmap).mpr ?_
  exact
    { aligned := fun _ => by decide
      writable := fun _ _ hwrite => absurd hwrite (by decide)
      first := fun habsent => absurd hpresent habsent }

/-- The second page of a region without a table: with the table its first page appears. -/
theorem not_mapsOnly_second_page : ∃ m₁ m', initPaging bootMachine = some m₁ ∧
    mapPage m₁ (700 * 4096) 0x20001000 7 = some (0, m') ∧ m₁.page 0x20000000 = none ∧
    m'.page 0x20000000 ≠ none ∧
      ¬ MapsOnly m₁ (700 * 4096) 0x20001000 7 m' := by
  obtain ⟨m₁, hinit, hs⟩ := bootMachine_started
  have hpde : m₁.pde 128 = 0 :=
    initPaging_pde_absent rfl bootMachine_boot.kernel bootMachine_boot.booted hinit le_rfl (by decide)
  have habsent : ¬ present (m₁.pde (0x20001000 / 4194304)) := by
    rw [show 0x20001000 / 4194304 = 128 by decide, hpde]
    decide
  have hdir : Intact m₁ m₁.dir := by
    rw [show m₁.dir = 300 from hs.dir]
    exact hs.intact 300 (by decide) (.inl (by decide))
  have hfree : Bitmap.test m₁.pmm.bitmap 641 = false := (heap_clear_iff hs (by decide)).mpr le_rfl
  obtain ⟨hall, -, -⟩ | ⟨f, hf, hclear, -, -, halloc⟩ := Pmm.pmmAllocBlock_cases hs.layout.booted
  · rw [hall 641 (by decide)] at hfree
    cases hfree
  have hva : 0x20001000 / 4194304 < 1024 ∧ 0x20001000 / 4194304 ≠ 1022 := by decide
  have hmap := mapPage_of_absent (700 * 4096) 7 hs.layout hdir hva habsent hf hclear
    (hs.intact f hf (.inr hclear)) halloc
  have hbefore : m₁.page 0x20000000 = none := page_of_absent habsent
  have htable : 0x20000000 / 4194304 = 0x20001000 / 4194304 := by decide
  have hafter := (newlyMapped_page_first (700 * 4096) hs.layout hf hclear (show present 7 by decide) hva
    htable (by decide)).not.mpr (not_not_intro (by decide))
  refine ⟨m₁, _, hinit, hmap, hbefore, hafter, fun hmaps => hafter ?_⟩
  refine (hmaps.others 0x20000000 (by decide) (by decide) (by decide) fun htaken => ?_).trans hbefore
  have hlow := htaken.1.1
  exact absurd hlow (by decide)

end JexOs.Paging
