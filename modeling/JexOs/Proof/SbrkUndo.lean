import JexOs.Proof.Sbrk

/-!
# What a failed `sbrk` leaves behind

The growing loop may find no frame, or no frame for a page table, or it may come to a page for which
`alloc_frames` has no room. Of `map_page` it matters when it fails and that it takes at most one frame.
-/

namespace JexOs.Sbrk

open Paging Pmm List Option

structure SameManager (m m' : Machine) : Prop where
  pmm : m'.pmm = m.pmm
  dir : m'.dir = m.dir
  active : m'.active = m.active

section Manager

variable {m m' m'' : Machine} {va v : Nat}

theorem SameManager.refl (m : Machine) : SameManager m m := ⟨rfl, rfl, rfl⟩

theorem SameManager.trans (h : SameManager m m') (h' : SameManager m' m'') : SameManager m m'' :=
  ⟨h'.pmm.trans h.pmm, h'.dir.trans h.dir, h'.active.trans h.active⟩

theorem store_sameManager (h : m.store va v = some m') : SameManager m m' := by
  obtain ⟨⟨f, w⟩, -, rfl⟩ := map_eq_some_iff.mp h
  exact ⟨rfl, rfl, rfl⟩

theorem zeroPage_sameManager {p : Nat} (h : m.zeroPage p = some m') : SameManager m m' := by
  unfold Machine.zeroPage at h
  generalize List.range 1024 = words at h
  induction words generalizing m with
  | nil =>
    cases h
    exact SameManager.refl _
  | cons w words ih =>
    rw [foldlM_cons, bind_eq_bind, bind_eq_some_iff] at h
    obtain ⟨m₁, hstore, hrest⟩ := h
    exact (store_sameManager hstore).trans (ih hrest)

theorem identityUnmapFrame_sameManager {p : Nat} (h : identityUnmapFrame m p = some m') :
    SameManager m m' := by
  unfold identityUnmapFrame at h
  split at h
  · cases h
    exact SameManager.refl m
  · split at h
    · cases h
      exact SameManager.refl m
    · simp only [bind_eq_bind, bind_eq_some_iff] at h
      obtain ⟨entry, -, hstore⟩ := h
      exact store_sameManager hstore

theorem getTableIn_cases {i flags t : Nat} (hactive : m.active = true)
    (h : getTableIn m (currentPageDir m) i flags = some (t, m')) :
    ∃ entry, m.load (currentPageDir m + 4 * i) = some entry ∧
    (present entry ∧ t = ptePtr i ∧ SameManager m m' ∨
        ¬present entry ∧ (allocBlock m).1 = 0 ∧ t = 0 ∧ m' = (allocBlock m).2 ∨
        ¬present entry ∧ (allocBlock m).1 ≠ 0 ∧ t = ptePtr i ∧ SameManager (allocBlock m).2 m') := by
  unfold getTableIn at h
  simp only [bind_eq_bind, bind_eq_some_iff] at h
  obtain ⟨entry, hload, h⟩ := h
  refine ⟨entry, hload, ?_⟩
  have hpointer : ∀ {m₁ : Machine} {a : Nat}, m₁.dir = m.dir → m₁.active = m.active →
      tablePointer m₁ (currentPageDir m) i a = some (ptePtr i, m₁) := fun {m₁ a} hdir hact => by
    have hcurrent := tablePointer_current (m := m₁) (hact.trans hactive) i a
    rwa [currentPageDir, hdir] at hcurrent
  split at h
  · rename_i hpresent
    refine .inl ⟨hpresent, ?_⟩
    split at h
    · obtain ⟨m₁, hgrant, h⟩ := bind_eq_some_iff.mp h
      have hsame := store_sameManager hgrant
      rw [hpointer hsame.dir hsame.active] at h
      cases h
      exact ⟨rfl, hsame⟩
    · rw [bind_some, hpointer rfl rfl] at h
      cases h
      exact ⟨rfl, SameManager.refl m⟩
  · rename_i habsent
    split at h
    · rename_i hnone
      cases h
      exact .inr (.inl ⟨habsent, hnone, rfl, rfl⟩)
    · rename_i hsome
      simp only [bind_eq_some_iff] at h
      obtain ⟨m₁, hzero, m₂, hself, m₃, hunmap, m₄, hentry, h⟩ := h
      have hsame := ((zeroPage_sameManager hzero).trans (store_sameManager hself)).trans
        ((identityUnmapFrame_sameManager hunmap).trans (store_sameManager hentry))
      rw [hpointer hsame.dir hsame.active] at h
      cases h
      exact .inr (.inr ⟨habsent, hsome, rfl, hsame⟩)

theorem allocBlock_lent (m : Machine) (hzero : Bitmap.test m.pmm.bitmap 0 = true) :
    allocBlock m = (0, m) ∨ ∃ f, (allocBlock m).1 = f * 4096 ∧ (allocBlock m).1 ≠ 0 ∧
      Lent m.pmm (allocBlock m).2.pmm [f] := by
  rcases (Lent.refl m.pmm).alloc hzero with hnone | ⟨f, hne, hphys, hlent⟩
  · left
    unfold allocBlock
    rw [hnone]
  · have hphys' : (allocBlock m).1 = f * 4096 := hphys
    exact .inr ⟨f, hphys', by omega, hlent⟩

theorem allocBlock_none (hzero : Bitmap.test m.pmm.bitmap 0 = true) (hnone : (allocBlock m).1 = 0) :
    (allocBlock m).2 = m := by
  rcases allocBlock_lent m hzero with hsame | ⟨f, -, hne, -⟩
  · rw [hsame]
  · exact absurd hnone hne

theorem allocBlock_some (hzero : Bitmap.test m.pmm.bitmap 0 = true) (hframe : (allocBlock m).1 ≠ 0) :
    ∃ f, (allocBlock m).1 = f * 4096 ∧ Lent m.pmm (allocBlock m).2.pmm [f] := by
  rcases allocBlock_lent m hzero with hsame | ⟨f, hphys, -, hlent⟩
  · rw [hsame] at hframe
    exact absurd rfl hframe
  · exact ⟨f, hphys, hlent⟩

/-- The directory has no table for the address, and no frame is left for one. -/
def NoTable (m : Machine) (va : Nat) : Prop :=
  ∃ entry, m.load (currentPageDir m + 4 * (va / 4194304)) = some entry ∧ ¬present entry ∧
    (allocBlock m).1 = 0

theorem mapPage_manager {phys flags : Nat} {r : Int} (hactive : m.active = true)
    (hzero : Bitmap.test m.pmm.bitmap 0 = true) (h : mapPage m phys va flags = some (r, m')) :
    (r = enomem ∧ NoTable m va ∧ m' = m) ∨ r = 0 ∧ ¬NoTable m va ∧ m'.active = true ∧ m'.dir = m.dir ∧
        ∃ tables, Lent m.pmm m'.pmm tables := by
  obtain ⟨⟨t, m₁⟩, htable, h⟩ := bind_eq_some_iff.mp h
  obtain ⟨entry, hload, hcases⟩ := getTableIn_cases hactive htable
  have hpointer : ptePtr (va / 4194304) ≠ 0 := by
    unfold ptePtr recursivePdeBase
    omega
  have hdone : ∀ {t}, t = ptePtr (va / 4194304) →
      (if t = 0 then some (enomem, m₁)
      else do
        let m ← m₁.store (t + va / 4096 % 1024 * 4) (entryFor phys flags)
        some (0, m)) = some (r, m') → r = 0 ∧ SameManager m₁ m' := fun ht h => by
    rw [ht, if_neg hpointer, bind_eq_bind, bind_eq_some_iff] at h
    obtain ⟨m₂, hstore, h⟩ := h
    cases h
    exact ⟨rfl, store_sameManager hstore⟩
  rcases hcases with ⟨hpresent, ht, hsame⟩ | ⟨habsent, hnone, rfl, rfl⟩ | ⟨habsent, hsome, ht, hsame⟩
  · obtain ⟨rfl, hsame'⟩ := hdone ht h
    have hall := hsame.trans hsame'
    refine .inr ⟨rfl, ?_, hall.active.trans hactive, hall.dir, [], ?_⟩
    · rintro ⟨entry', hload', habsent, -⟩
      rw [hload] at hload'
      cases hload'
      exact habsent hpresent
    · rw [hall.pmm]
      exact Lent.refl m.pmm
  · cases h
    exact .inl ⟨rfl, ⟨entry, hload, habsent, hnone⟩, allocBlock_none hzero hnone⟩
  · obtain ⟨rfl, hsame'⟩ := hdone ht h
    have hall := hsame.trans hsame'
    refine .inr ⟨rfl, fun hno => hsome hno.choose_spec.2.2, hall.active.trans hactive, hall.dir, ?_⟩
    obtain ⟨f, -, hlent⟩ := allocBlock_some hzero hsome
    refine ⟨[f], ?_⟩
    rw [hall.pmm]
    exact hlent

theorem mapPage_noTable (phys flags : Nat) (hzero : Bitmap.test m.pmm.bitmap 0 = true)
    (h : NoTable m va) : mapPage m phys va flags = some (enomem, m) := by
  obtain ⟨entry, hload, habsent, hnone⟩ := h
  have hsame := allocBlock_none hzero hnone
  unfold mapPage mapPageIn getTableIn
  rw [hload]
  simp only [bind_eq_bind, bind_some, if_neg habsent, hnone, if_true, hsame]

end Manager

inductive Pages (newBreak : Nat) : State → List Nat → State → Prop where
  | done (s : State) : Pages newBreak s [] s
  | page {s t : State} {m : Machine} {frames : List Nat} (hmore : newBreak > s.heapEnd)
      (hframe : (allocBlock s.machine).1 ≠ 0)
      (hmap : mapPage (allocBlock s.machine).2 (allocBlock s.machine).1 s.heapEnd 7 = some (0, m))
      (hrest : Pages newBreak
        { s with
          machine := m
          heapEnd := (s.heapEnd + 4096) % 2 ^ 32 } frames t) :
      Pages newBreak s ((allocBlock s.machine).1 :: frames) t

/-- A frame that `map_page` takes for a page table while the loop maps `room` pages. -/
def TableMade (newBreak room : Nat) (s : State) (f : Nat) : Prop :=
  ∃ frames t m, frames.length < room ∧ Pages newBreak s frames t ∧ newBreak > t.heapEnd ∧
    (allocBlock t.machine).1 ≠ 0 ∧
    mapPage (allocBlock t.machine).2 (allocBlock t.machine).1 t.heapEnd 7 = some (0, m) ∧
    Bitmap.test (allocBlock t.machine).2.pmm.bitmap f = false ∧ Bitmap.test m.pmm.bitmap f = true

structure Grew (newBreak : Nat) (s₀ : State) (frames : List Nat) (tables : List Nat) (s : State) :
    Prop where
  lent : Lent s₀.machine.pmm s.machine.pmm (frames ++ tables)
  made : ∀ f ∈ tables, TableMade newBreak frames.length s₀ f
  heapEnd : s.heapEnd = (s₀.heapEnd + 4096 * frames.length) % 2 ^ 32
  programBreak : s.programBreak = s₀.programBreak
  active : s.machine.active = true

section Loop

variable {newBreak : Nat} {s s' t : State} {frames tables : List Nat} {f : Nat}

variable {room : Nat} {m : Machine}

theorem TableMade.later (hmore : newBreak > s.heapEnd) (hframe : (allocBlock s.machine).1 ≠ 0)
    (hmap : mapPage (allocBlock s.machine).2 (allocBlock s.machine).1 s.heapEnd 7 = some (0, m))
    (h : TableMade newBreak room
      { s with
        machine := m
        heapEnd := (s.heapEnd + 4096) % 2 ^ 32 } f) : TableMade newBreak (room + 1) s f := by
  obtain ⟨frames, t, m', hroom, hpages, hrest⟩ := h
  refine ⟨_, t, m', ?_, .page hmore hframe hmap hpages, hrest⟩
  rw [length_cons]
  omega

theorem TableMade.mono {room' : Nat} (h : TableMade newBreak room s f) (hle : room ≤ room') :
    TableMade newBreak room' s f := by
  obtain ⟨frames, t, m, hroom, hrest⟩ := h
  exact ⟨frames, t, m, hroom.trans_le hle, hrest⟩

theorem Pages.grew (h : Pages newBreak s frames t) (hactive : s.machine.active = true)
    (hzero : Bitmap.test s.machine.pmm.bitmap 0 = true) (hend : s.heapEnd < 2 ^ 32) :
    ∃ taken tables, frames = taken.map (· * 4096) ∧ Grew newBreak s taken tables t := by
  induction h with
  | done s =>
    refine ⟨[], [], rfl, Lent.refl _, fun _ hf => absurd hf not_mem_nil, ?_, rfl, hactive⟩
    exact (Nat.mod_eq_of_lt hend).symm
  | page hmore hframe hmap hrest ih =>
    rename_i s t m frames
    obtain ⟨f, hphys, hlent⟩ := allocBlock_some hzero hframe
    have hactive₁ : (allocBlock s.machine).2.active = true := hactive
    rcases mapPage_manager hactive₁ (hlent.reserved hzero) hmap with
      ⟨hbad, -⟩ | ⟨-, -, hactive', -, made, hmade⟩
    · exact absurd hbad (by decide)
    · have hpage := hlent.trans hmade
      obtain ⟨taken, tables, rfl, hgrew⟩ := ih hactive' (hpage.reserved hzero) (Nat.mod_lt _ (by decide))
      refine ⟨f :: taken, tables ++ made, by rw [hphys, map_cons], ?_, ?_, ?_,
        hgrew.programBreak, hgrew.active⟩
      · refine (hpage.trans hgrew.lent).perm ?_
        rw [cons_append, ← append_assoc, ← append_assoc]
        exact perm_append_singleton f _
      · intro g hg
        rcases mem_append.mp hg with hlater | hnow
        · exact (hgrew.made g hlater).later hmore hframe hmap
        · have hfresh := (hmade.fresh g hnow).2
          refine ⟨[], s, m, Nat.succ_pos _, .done s, hmore, hframe, hmap, hfresh, ?_⟩
          rw [hmade.bits g, decide_eq_true hnow, Bool.true_or]
      · rw [hgrew.heapEnd, length_cons]
        simp only
        omega

inductive Fails (full : Bool) (frames : List Nat) (t : State) : State → Prop where
  | noFrame (hnone : (allocBlock t.machine).1 = 0) : Fails full frames t (rollback frames t)
  | noRoom (hfull : full = true) (hframe : (allocBlock t.machine).1 ≠ 0) :
      Fails full frames t (rollback frames { t with machine := (allocBlock t.machine).2 })
  | noTable (hroom : full = false) (hframe : (allocBlock t.machine).1 ≠ 0)
      (hno : NoTable (allocBlock t.machine).2 t.heapEnd) :
      Fails full frames t (rollback (frames ++ [(allocBlock t.machine).1])
        { t with machine := (allocBlock t.machine).2 })

structure Runs (s : State) : Prop where
  active : s.machine.active = true
  zero : Bitmap.test s.machine.pmm.bitmap 0 = true
  heapEnd : s.heapEnd < 2 ^ 32

theorem Runs.alloc (h : Runs s) : Runs { s with machine := (allocBlock s.machine).2 } := by
  refine ⟨h.active, ?_, h.heapEnd⟩
  rcases allocBlock_lent s.machine h.zero with hnone | ⟨f, -, -, hlent⟩
  · rw [hnone]
    exact h.zero
  · exact hlent.reserved h.zero

theorem Runs.map {phys va : Nat} (h : Runs s) (hmap : mapPage s.machine phys va 7 = some (0, m)) (e : Nat) :
    Runs { s with machine := m, heapEnd := e % 2 ^ 32 } := by
  rcases mapPage_manager h.active h.zero hmap with ⟨hbad, -⟩ | ⟨-, -, hactive, -, made, hmade⟩
  · exact absurd hbad (by decide)
  · exact ⟨hactive, hmade.reserved h.zero, Nat.mod_lt _ (by decide)⟩

theorem growHeap_noFrame (h : Runs s) (hmore : newBreak > s.heapEnd) (hnone : (allocBlock s.machine).1 = 0) :
    growHeap newBreak room frames s = some (false, rollback frames s) := by
  have hsame := allocBlock_none h.zero hnone
  cases room with
  | zero => simp only [growHeap, if_pos hmore, hsame]
  | succ room => simp only [growHeap, if_pos hmore, hnone, if_true, hsame]

theorem growHeap_noRoom (hmore : newBreak > s.heapEnd) : growHeap newBreak 0 frames s =
      some (false, rollback frames { s with machine := (allocBlock s.machine).2 }) := by
  simp only [growHeap, if_pos hmore]

theorem growHeap_mapped (hmore : newBreak > s.heapEnd) (hframe : (allocBlock s.machine).1 ≠ 0)
    (hmap : mapPage (allocBlock s.machine).2 (allocBlock s.machine).1 s.heapEnd 7 = some (0, m)) :
    growHeap newBreak (room + 1) frames s = growHeap newBreak room (frames ++ [(allocBlock s.machine).1])
        { s with
          machine := m
          heapEnd := (s.heapEnd + 4096) % 2 ^ 32 } := by
  simp only [growHeap, if_pos hmore, if_neg hframe, hmap]
  rfl

theorem growHeap_noTable (h : Runs s) (hmore : newBreak > s.heapEnd)
    (hframe : (allocBlock s.machine).1 ≠ 0) (hno : NoTable (allocBlock s.machine).2 s.heapEnd) :
    growHeap newBreak (room + 1) frames s = some (false, rollback (frames ++ [(allocBlock s.machine).1])
        { s with machine := (allocBlock s.machine).2 }) := by
  have hmap := mapPage_noTable (allocBlock s.machine).1 7 h.alloc.zero hno
  simp only [growHeap, if_pos hmore, if_neg hframe, hmap]
  rfl

theorem growHeap_fault (hmore : newBreak > s.heapEnd) (hframe : (allocBlock s.machine).1 ≠ 0)
    (hmap : mapPage (allocBlock s.machine).2 (allocBlock s.machine).1 s.heapEnd 7 = none) :
    growHeap newBreak (room + 1) frames s = none := by
  simp only [growHeap, if_pos hmore, if_neg hframe, hmap]
  rfl

theorem growHeap_false (h : Runs s) : growHeap newBreak room frames s = some (false, s') ↔
      ∃ more t, more.length ≤ room ∧ Pages newBreak s more t ∧ newBreak > t.heapEnd ∧
        Fails (decide (more.length = room)) (frames ++ more) t s' := by
  induction room generalizing frames s with
  | zero =>
    constructor
    · intro hrun
      by_cases hmore : newBreak > s.heapEnd
      · refine ⟨[], s, le_rfl, .done s, hmore, ?_⟩
        rw [append_nil]
        by_cases hnone : (allocBlock s.machine).1 = 0
        · rw [growHeap_noFrame h hmore hnone] at hrun
          cases hrun
          exact .noFrame hnone
        · rw [growHeap_noRoom hmore] at hrun
          cases hrun
          exact .noRoom rfl hnone
      · rw [growHeap_done hmore] at hrun
        cases hrun
    · rintro ⟨more, t, hlength, hpages, hmore, hfails⟩
      obtain rfl := length_eq_zero_iff.mp (Nat.le_zero.mp hlength)
      cases hpages
      rw [append_nil] at hfails
      cases hfails with
      | noFrame hnone => exact growHeap_noFrame h hmore hnone
      | noRoom _ _ => exact growHeap_noRoom hmore
      | noTable hroom _ _ => cases hroom
  | succ room ih =>
    constructor
    · intro hrun
      by_cases hmore : newBreak > s.heapEnd
      · by_cases hnone : (allocBlock s.machine).1 = 0
        · rw [growHeap_noFrame h hmore hnone] at hrun
          cases hrun
          refine ⟨[], s, Nat.zero_le _, .done s, hmore, ?_⟩
          rw [append_nil]
          exact .noFrame hnone
        · obtain ⟨⟨r, m⟩, hmap⟩ : ∃ p,
            mapPage (allocBlock s.machine).2 (allocBlock s.machine).1 s.heapEnd 7 = some p :=
            ne_none_iff_exists'.mp fun hmap => by
              rw [growHeap_fault hmore hnone hmap] at hrun
              cases hrun
          rcases mapPage_manager h.alloc.active h.alloc.zero hmap with
            ⟨-, hno, -⟩ | ⟨rfl, -, -⟩
          · rw [growHeap_noTable h hmore hnone hno] at hrun
            cases hrun
            refine ⟨[], s, Nat.zero_le _, .done s, hmore, ?_⟩
            rw [append_nil]
            exact .noTable rfl hnone hno
          · rw [growHeap_mapped hmore hnone hmap] at hrun
            obtain ⟨more, t, hlength, hpages, hmore', hfails⟩ := (ih (h.alloc.map hmap _)).mp hrun
            refine ⟨_, t, ?_, .page hmore hnone hmap hpages, hmore', ?_⟩
            · rw [length_cons]
              omega
            · simpa using hfails
      · rw [growHeap_done hmore] at hrun
        cases hrun
    · rintro ⟨more, t, hlength, hpages, hmore, hfails⟩
      cases hpages with
      | done =>
        rw [append_nil] at hfails
        cases hfails with
        | noFrame hnone => exact growHeap_noFrame h hmore hnone
        | noRoom hfull _ => cases hfull
        | noTable _ hframe hno => exact growHeap_noTable h hmore hframe hno
      | page hmore' hframe hmap hrest =>
        rw [growHeap_mapped hmore' hframe hmap]
        refine (ih (h.alloc.map hmap _)).mpr ⟨_, t, ?_, hrest, hmore, ?_⟩
        · rw [length_cons] at hlength
          omega
        · simpa using hfails

theorem Pages.reserved (h : Pages newBreak s frames t) (hs : Runs s)
    (hset : Bitmap.test s.machine.pmm.bitmap f = true) : Bitmap.test t.machine.pmm.bitmap f = true := by
  obtain ⟨taken, tables, -, hgrew⟩ := h.grew hs.active hs.zero hs.heapEnd
  exact hgrew.lent.reserved hset

theorem TableMade.taken (h : TableMade newBreak room s f)
    (hpages : Pages newBreak s frames t) (hs : Runs s) (hroom : room ≤ frames.length) :
    Bitmap.test t.machine.pmm.bitmap f = true := by
  obtain ⟨before, u, m, hbefore, hpath, hmore, hframe, hmap, -, hset⟩ := h
  induction hpath generalizing frames room with
  | done s =>
    cases hpages with
    | done => exact absurd hbefore (Nat.not_lt_of_le (hroom.trans (Nat.zero_le _)))
    | page _ _ hmap' hrest =>
      rw [hmap] at hmap'
      cases hmap'
      exact hrest.reserved (hs.alloc.map hmap _) hset
  | page _ _ hmap' _ ih =>
    cases hpages with
    | done => exact absurd hbefore (Nat.not_lt_of_le (hroom.trans (Nat.zero_le _)))
    | page _ _ hmap'' hrest =>
      rw [hmap'] at hmap''
      cases hmap''
      obtain ⟨room, rfl⟩ : ∃ k, room = k + 1 := ⟨room - 1, by omega⟩
      exact ih hrest (hs.alloc.map hmap' _) (Nat.le_of_succ_le_succ hroom)
        (Nat.lt_of_succ_lt_succ hbefore) hmore hframe hmap

theorem freeFrames_lent {p₀ : Pmm.State} {taken : List Nat} (h : Lent p₀ m.pmm (taken ++ tables)) :
    Lent p₀ (freeFrames (taken.map (· * 4096)) m).pmm tables := by
  unfold freeFrames
  generalize m.pmm = p at h
  induction taken generalizing p with
  | nil => exact h
  | cons f taken ih => exact ih _ h.giveBack

end Loop

def target (s : State) (increment : Int) : Nat :=
  ((start s).programBreak + increment.toNat) % 2 ^ 32

/-- The break, the end of the heap and the allocated frames are as they were, the frames of new page tables
apart. -/
structure Unchanged (s : State) (increment : Int) (s' : State) : Prop where
  programBreak : s'.programBreak = s.programBreak
  heapEnd : s'.heapEnd = s.heapEnd
  frames : ∀ f, ¬TableMade (target s increment) sbrkMaxPages (start s) f →
    Bitmap.test s'.machine.pmm.bitmap f = Bitmap.test s.machine.pmm.bitmap f

def Atomic (s : State) (increment : Int) : Prop :=
  ∀ s', sbrk s increment = some (failed, s') → Unchanged s increment s'

def Rejected (s : State) (increment : Int) : Prop :=
  (increment > 0 ∧ (increment.toNat > 0x1F000000 ∨ target s increment < (start s).programBreak)) ∨
    increment < 0 ∧ (-increment).toNat > ((start s).programBreak + 2 ^ 32 - heapStart) % 2 ^ 32

def Stops (newBreak : Nat) (s : State) : Prop :=
  ∃ frames t, frames.length ≤ sbrkMaxPages ∧ Pages newBreak s frames t ∧ newBreak > t.heapEnd ∧
    ((allocBlock t.machine).1 = 0 ∨ frames.length = sbrkMaxPages ∨
      NoTable (allocBlock t.machine).2 t.heapEnd)

/-- The loop comes to a page that it cannot map after it has taken the frame for it. -/
def Slips (newBreak : Nat) (s : State) : Prop :=
  ∃ frames t, frames.length ≤ sbrkMaxPages ∧ Pages newBreak s frames t ∧ newBreak > t.heapEnd ∧
    (allocBlock t.machine).1 ≠ 0 ∧
    (frames.length = sbrkMaxPages ∨ NoTable (allocBlock t.machine).2 t.heapEnd)

structure Undoes (s : State) (increment : Int) : Prop where
  /-- The first call sets the break, whatever comes of it. -/
  first : s.programBreak = 0 →
    ¬Rejected s increment ∧ (0 < increment → ¬Stops (target s increment) (start s))
  loop : s.programBreak ≠ 0 → 0 < increment → ¬Rejected s increment → ¬Slips (target s increment) s
  /-- A break that looks like the failure is returned by a call that moves it. -/
  break_ne : increment < 0 → s.programBreak ≠ failed

section Call

variable {s s' t : State} {newBreak : Nat} {frames : List Nat} {increment : Int}

theorem start_of_ne (h : s.programBreak ≠ 0) : start s = s := if_neg h

theorem Runs.start (h : Runs s) : Runs (start s) := by
  unfold Sbrk.start
  split
  · exact ⟨h.active, h.zero, show heapStart < 2 ^ 32 by decide⟩
  · exact h

theorem sbrk_rejected (h : Rejected s increment) : sbrk s increment = some (failed, start s) := by
  unfold Rejected target at h
  unfold sbrk
  rcases h with hgrow | hshrink
  · rw [if_neg (by omega), if_pos hgrow]
  · rw [if_neg (by omega), if_neg (by omega), if_pos hshrink]

theorem sbrk_grows (h : ¬Rejected s increment) (hpos : 0 < increment) : sbrk s increment =
      match growHeap (target s increment) sbrkMaxPages [] (start s) with
      | none => none
      | some (true, s') =>
        some ((start s).programBreak, { s' with programBreak := target s increment })
      | some (false, s') => some (failed, s') := by
  unfold Rejected at h
  unfold sbrk target at *
  rw [if_neg (by omega), if_neg (fun hgrow => h (.inl hgrow)), if_neg (by omega), if_pos hpos]
  cases growHeap (((start s).programBreak + increment.toNat) % 2 ^ 32) sbrkMaxPages [] (start s) with
  | none => rfl
  | some result =>
    obtain ⟨done, s'⟩ := result
    cases done with
    | true => rfl
    | false => rfl

theorem sbrk_shrinks (h : ¬Rejected s increment) (hneg : increment < 0) :
    sbrk s increment = some ((start s).programBreak, { start s with
      programBreak :=
        max (((start s).programBreak + 2 ^ 32 - (-increment).toNat) % 2 ^ 32) heapStart }) := by
  unfold sbrk
  rw [if_neg (by omega), if_neg (by omega), if_neg (fun hshrink => h (.inr hshrink)), if_neg (by omega)]

theorem stops_iff (h : Runs s) :
    Stops newBreak s ↔ ∃ s', growHeap newBreak sbrkMaxPages [] s = some (false, s') := by
  simp only [growHeap_false h]
  constructor
  · rintro ⟨frames, t, hlength, hpages, hmore, hstop⟩
    by_cases hnone : (allocBlock t.machine).1 = 0
    · exact ⟨_, frames, t, hlength, hpages, hmore, .noFrame hnone⟩
    · by_cases hfull : frames.length = sbrkMaxPages
      · exact ⟨_, frames, t, hlength, hpages, hmore, .noRoom (decide_eq_true hfull) hnone⟩
      · have hno := (hstop.resolve_left hnone).resolve_left hfull
        exact ⟨_, frames, t, hlength, hpages, hmore, .noTable (decide_eq_false hfull) hnone hno⟩
  · rintro ⟨s', frames, t, hlength, hpages, hmore, hfails⟩
    refine ⟨frames, t, hlength, hpages, hmore, ?_⟩
    cases hfails with
    | noFrame hnone => exact .inl hnone
    | noRoom hfull _ => exact .inr (.inl (of_decide_eq_true hfull))
    | noTable _ _ hno => exact .inr (.inr hno)

theorem rollback_unchanged (hs : Runs s) (hnull : s.programBreak ≠ 0)
    (hpages : Pages (target s increment) s frames t)
    (hlength : frames.length ≤ sbrkMaxPages) : Unchanged s increment (rollback frames t) := by
  obtain ⟨taken, tables, rfl, hgrew⟩ := hpages.grew hs.active hs.zero hs.heapEnd
  have hlent := freeFrames_lent hgrew.lent
  have hend := hs.heapEnd
  rw [length_map] at hlength
  have hmax : sbrkMaxPages = 128 := rfl
  refine ⟨hgrew.programBreak, ?_, fun f hf => ?_⟩
  · unfold rollback
    simp only [hgrew.heapEnd, length_map]
    omega
  · rw [start_of_ne hnull] at hf
    have hnot : f ∉ tables := fun hmem => hf ((hgrew.made f hmem).mono hlength)
    exact (hlent.bits f).trans (by rw [decide_eq_false hnot, Bool.false_or])

theorem noRoom_not_unchanged (hs : Runs s) (hnull : s.programBreak ≠ 0)
    (hpages : Pages (target s increment) s frames t) (hlength : frames.length = sbrkMaxPages)
    (hframe : (allocBlock t.machine).1 ≠ 0) :
    ¬Unchanged s increment (rollback frames { t with machine := (allocBlock t.machine).2 }) := by
  intro hundone
  obtain ⟨taken, tables, rfl, hgrew⟩ := hpages.grew hs.active hs.zero hs.heapEnd
  have hzero : Bitmap.test t.machine.pmm.bitmap 0 = true := hgrew.lent.reserved hs.zero
  obtain ⟨f, -, hlent⟩ := allocBlock_some hzero hframe
  have hfree := (hlent.fresh f mem_cons_self).2
  have hperm : (f :: (taken ++ tables)).Perm (taken ++ f :: tables) := perm_middle.symm
  have hleft := freeFrames_lent ((hgrew.lent.trans hlent).perm hperm)
  have hsame := hundone.frames f fun hmade => by
    rw [start_of_ne hnull] at hmade
    have hset := hmade.taken hpages hs hlength.ge
    rw [hfree] at hset
    cases hset
  have hset : Bitmap.test (rollback (taken.map (· * 4096))
      { t with machine := (allocBlock t.machine).2 }).machine.pmm.bitmap f = true :=
    (hleft.bits f).trans (by rw [decide_eq_true mem_cons_self, Bool.true_or])
  rw [hset, (hgrew.lent.free hfree).2] at hsame
  cases hsame

theorem noTable_not_unchanged (hs : Runs s) (hpages : Pages (target s increment) s frames t)
    (hlength : frames.length ≤ sbrkMaxPages) {frame : Nat} {m : Machine} :
    ¬Unchanged s increment (rollback (frames ++ [frame]) { t with machine := m }) := by
  intro hundone
  obtain ⟨taken, tables, rfl, hgrew⟩ := hpages.grew hs.active hs.zero hs.heapEnd
  have hsame := hundone.heapEnd
  have hmax : sbrkMaxPages = 128 := rfl
  rw [length_map] at hlength
  unfold rollback at hsame
  simp only [hgrew.heapEnd, length_append, length_map, length_singleton] at hsame
  omega

theorem growHeap_of_failed (h : ¬Rejected s increment) (hpos : 0 < increment)
    (hrun : sbrk s increment = some (failed, s')) :
    growHeap (target s increment) sbrkMaxPages [] (start s) = some (false, s') := by
  rw [sbrk_grows h hpos] at hrun
  cases hgrow : growHeap (target s increment) sbrkMaxPages [] (start s) with
  | none =>
    rw [hgrow] at hrun
    cases hrun
  | some result =>
    obtain ⟨done, s₁⟩ := result
    rw [hgrow] at hrun
    cases done with
    | false =>
      cases hrun
      rfl
    | true =>
      have hbreak : (start s).programBreak = failed := congrArg Prod.fst (some.inj hrun)
      refine absurd (.inl ⟨hpos, ?_⟩) h
      unfold target
      rw [hbreak]
      unfold failed
      omega

theorem start_ne_failed (hnull : s.programBreak = 0) : (start s).programBreak ≠ failed := by
  unfold start
  rw [if_pos hnull]
  exact show heapStart ≠ failed by decide

theorem Undoes.atomic (h : Undoes s increment) (hs : Runs s) : Atomic s increment := by
  intro s' hrun
  by_cases hnull : s.programBreak = 0
  · -- the first call does not fail
    obtain ⟨hrejected, hstops⟩ := h.first hnull
    rcases Int.lt_trichotomy increment 0 with hneg | rfl | hpos
    · rw [sbrk_shrinks hrejected hneg] at hrun
      exact absurd (congrArg Prod.fst (some.inj hrun)) (start_ne_failed hnull)
    · exact absurd (congrArg Prod.fst (some.inj hrun)) (start_ne_failed hnull)
    · exact absurd ((stops_iff hs.start).mpr ⟨s', growHeap_of_failed hrejected hpos hrun⟩) (hstops hpos)
  · have hstart := start_of_ne hnull
    by_cases hrejected : Rejected s increment
    · rw [sbrk_rejected hrejected, hstart] at hrun
      cases hrun
      exact ⟨rfl, rfl, fun _ _ => rfl⟩
    · rcases Int.lt_trichotomy increment 0 with hneg | rfl | hpos
      · rw [sbrk_shrinks hrejected hneg, hstart] at hrun
        exact absurd (congrArg Prod.fst (some.inj hrun)) (h.break_ne hneg)
      · have hsame : start s = s' := congrArg Prod.snd (some.inj hrun)
        rw [← hsame, hstart]
        exact ⟨rfl, rfl, fun _ _ => rfl⟩
      · have hgrow := growHeap_of_failed hrejected hpos hrun
        rw [hstart] at hgrow
        obtain ⟨frames, t, hlength, hpages, hmore, hfails⟩ := (growHeap_false hs).mp hgrow
        have hslips := h.loop hnull hpos hrejected
        cases hfails with
        | noFrame hnone => exact rollback_unchanged hs hnull hpages hlength
        | noRoom hfull hframe =>
          exact absurd ⟨frames, t, hlength, hpages, hmore, hframe, .inl (of_decide_eq_true hfull)⟩ hslips
        | noTable _ hframe hno =>
          exact absurd ⟨frames, t, hlength, hpages, hmore, hframe, .inr hno⟩ hslips

theorem Atomic.undoes (h : Atomic s increment) (hs : Runs s) (hlow : -2 ^ 31 ≤ increment) :
    Undoes s increment := by
  -- a first call that fails leaves the break set
  have hfirst : s.programBreak = 0 → ∀ s', sbrk s increment = some (failed, s') →
      s'.programBreak ≠ heapStart := fun hnull s' hrun heq => by
    have hsame := (h s' hrun).programBreak
    rw [heq, hnull] at hsame
    cases hsame
  have hset : s.programBreak = 0 → (start s).programBreak = heapStart := fun hnull => by
    unfold start
    rw [if_pos hnull]
  refine ⟨fun hnull => ?_, fun hnull hpos hrejected hslips => ?_, fun hneg hfailed => ?_⟩
  · have hrejected : ¬Rejected s increment := fun hrejected =>
      hfirst hnull _ (sbrk_rejected hrejected) (hset hnull)
    refine ⟨hrejected, fun hpos hstops => ?_⟩
    obtain ⟨s', hgrow⟩ := (stops_iff hs.start).mp hstops
    obtain ⟨frames, t, -, hpages, -, hfails⟩ := (growHeap_false hs.start).mp hgrow
    obtain ⟨taken, tables, -, hgrew⟩ := hpages.grew hs.start.active hs.start.zero hs.start.heapEnd
    refine hfirst hnull s' (by rw [sbrk_grows hrejected hpos, hgrow]) ?_
    rw [← hset hnull, ← hgrew.programBreak]
    cases hfails with
    | noFrame _ => rfl
    | noRoom _ _ => rfl
    | noTable _ _ _ => rfl
  · obtain ⟨frames, t, hlength, hpages, hmore, hframe, hslip⟩ := hslips
    have hfails : ∀ s', Fails (decide (frames.length = sbrkMaxPages)) ([] ++ frames) t s' →
        Unchanged s increment s' := fun s' hfails => by
      refine h s' ?_
      rw [sbrk_grows hrejected hpos, start_of_ne hnull,
        (growHeap_false hs).mpr ⟨frames, t, hlength, hpages, hmore, hfails⟩]
    by_cases hfull : frames.length = sbrkMaxPages
    · exact noRoom_not_unchanged hs hnull hpages hfull hframe
        (hfails _ (.noRoom (decide_eq_true hfull) hframe))
    · exact noTable_not_unchanged hs hpages hlength
        (hfails _ (.noTable (decide_eq_false hfull) hframe (hslip.resolve_left hfull)))
  · have hnull : s.programBreak ≠ 0 := by
      rw [hfailed]
      decide
    have hstart := start_of_ne hnull
    unfold failed at hfailed
    have hrejected : ¬Rejected s increment := by
      unfold Rejected heapStart
      rw [hstart, hfailed]
      omega
    have hrun := sbrk_shrinks hrejected hneg
    rw [hstart, hfailed] at hrun
    have hsame := (h _ hrun).programBreak
    simp only [hfailed] at hsame
    unfold heapStart at hsame
    omega

/-- **Undoing `sbrk`.** A call that fails leaves all as it was exactly if it is no first call, comes to no page that
it cannot map after it has taken a frame for it, and the break is not the value that stands for a failure. -/
theorem sbrk_atomic_iff (hs : Runs s) (hlow : -2 ^ 31 ≤ increment) : Atomic s increment ↔ Undoes s increment :=
  ⟨fun h => h.undoes hs hlow, fun h => h.atomic hs⟩

end Call

def fullHeap : State where
  machine :=
    { phys := fun _ _ => 0
      pmm :=
        { bitmap := fun _ => 0xFF
          usedBlocks := totalBlocks }
      dir := 0
      active := true }
  programBreak := heapStart
  heapEnd := heapStart

theorem sbrk_atomic_iff_full : Undoes fullHeap 4096 ∧ Atomic fullHeap 4096 := by
  have hruns : Runs fullHeap := ⟨rfl, by decide, by decide⟩
  have hnone : (allocBlock fullHeap.machine).1 = 0 := rfl
  have hundoes : Undoes fullHeap 4096 := by
    refine ⟨fun hnull => absurd hnull (by decide), fun _ _ _ hslips => ?_, fun hneg => absurd hneg (by decide)⟩
    obtain ⟨frames, t, -, hpages, -, hframe, -⟩ := hslips
    cases hpages with
    | done => exact hframe hnone
    | page _ hframe' _ _ => exact hframe' hnone
  exact ⟨hundoes, (sbrk_atomic_iff hruns (by decide)).mpr hundoes⟩

section Kernel

variable {newBreak : Nat} {s : State}

theorem Good.pages {n : Nat} (hm : Good s.machine)
    (hpages : ∃ h, s.heapEnd = heapStart + 4096 * h ∧ h ≤ s.machine.pmm.usedBlocks)
    (hn : s.machine.pmm.usedBlocks + n ≤ totalBlocks) (hbreak : s.heapEnd + 4096 * n ≤ newBreak) :
    ∃ frames t, frames.length = n ∧ Pages newBreak s frames t ∧ Good t.machine ∧
      t.machine.pmm.usedBlocks = s.machine.pmm.usedBlocks + n ∧ t.heapEnd = s.heapEnd + 4096 * n := by
  induction n generalizing s with
  | zero => exact ⟨[], s, rfl, .done s, hm, rfl, rfl⟩
  | succ n ih =>
    obtain ⟨hlow, hhigh⟩ := heapEnd_lt hm hpages
    generalize htotal : totalBlocks = total at *
    obtain ⟨hfull, -⟩ | ⟨f, m', hf, -, hne, halloc, hmap, hgood, hpmm, -, -⟩ :=
      hm.push s.heapEnd (le_trans (by decide) hlow) (lt_of_le_of_lt hhigh (by decide))
    · omega
    · have hused : m'.pmm.usedBlocks = s.machine.pmm.usedBlocks + 1 := by
        rw [hpmm]
        rfl
      have hend : (s.heapEnd + 4096) % 2 ^ 32 = s.heapEnd + 4096 :=
        Nat.mod_eq_of_lt (lt_of_le_of_lt (Nat.add_le_add_right hhigh 4096) (by decide))
      obtain ⟨h, hstart, hle⟩ := hpages
      obtain ⟨frames, t, hlength, hpath, hgood', hused', hend'⟩ := ih
        (s := { s with
          machine := m'
          heapEnd := (s.heapEnd + 4096) % 2 ^ 32 }) hgood
        ⟨h + 1, by rw [hend, hstart, Nat.mul_succ, Nat.add_assoc],
          show h + 1 ≤ m'.pmm.usedBlocks by omega⟩
        (show m'.pmm.usedBlocks + n ≤ total by omega)
        (show (s.heapEnd + 4096) % 2 ^ 32 + 4096 * n ≤ newBreak by omega)
      have hframe : (allocBlock s.machine).1 ≠ 0 := by
        rw [halloc]
        exact hne
      have hpage : mapPage (allocBlock s.machine).2 (allocBlock s.machine).1 s.heapEnd 7 =
          some (0, m') := by
        simp only [halloc, hmap]
      refine ⟨_, t, ?_, .page (by omega) hframe hpage hpath, hgood', ?_, ?_⟩
      · rw [length_cons, hlength]
      · simp only at hused'
        omega
      · simp only at hend'
        omega

theorem Pages.good {frames : List Nat} {t : State} (h : Pages newBreak s frames t) (hm : Good s.machine)
    (hpages : ∃ h, s.heapEnd = heapStart + 4096 * h ∧ h ≤ s.machine.pmm.usedBlocks) :
    Good t.machine ∧ t.machine.pmm.usedBlocks = s.machine.pmm.usedBlocks + frames.length ∧
      t.heapEnd = s.heapEnd + 4096 * frames.length := by
  induction h with
  | done s => exact ⟨hm, rfl, rfl⟩
  | page hmore hframe hmap hrest ih =>
    rename_i s t m frames
    obtain ⟨hlow, hhigh⟩ := heapEnd_lt hm hpages
    obtain ⟨-, hnone⟩ | ⟨f, m', hf, -, hne, halloc, hmap', hgood, hpmm, -, -⟩ :=
      hm.push s.heapEnd (le_trans (by decide) hlow) (lt_of_le_of_lt hhigh (by decide))
    · rw [hnone] at hframe
      exact absurd rfl hframe
    · simp only [halloc, hmap'] at hmap
      cases hmap
      have hused : m.pmm.usedBlocks = s.machine.pmm.usedBlocks + 1 := by
        rw [hpmm]
        rfl
      have hend : (s.heapEnd + 4096) % 2 ^ 32 = s.heapEnd + 4096 :=
        Nat.mod_eq_of_lt (lt_of_le_of_lt (Nat.add_le_add_right hhigh 4096) (by decide))
      obtain ⟨h, hstart, hle⟩ := hpages
      obtain ⟨hgood', hused', hend'⟩ := ih hgood
        ⟨h + 1, by rw [hend, hstart, Nat.mul_succ, Nat.add_assoc],
          show h + 1 ≤ m.pmm.usedBlocks by omega⟩
      simp only at hused' hend'
      rw [length_cons]
      exact ⟨hgood', by omega, by omega⟩

theorem Good.slips_iff (hm : Good s.machine)
    (hpages : ∃ h, s.heapEnd = heapStart + 4096 * h ∧ h ≤ s.machine.pmm.usedBlocks) :
    Slips newBreak s ↔ s.heapEnd + 4096 * sbrkMaxPages < newBreak ∧ sbrkMaxPages < s.freeCount := by
  unfold State.freeCount
  constructor
  · rintro ⟨frames, t, hlength, hpath, hmore, hframe, hslip⟩
    obtain ⟨hgood, hused, hend⟩ := hpath.good hm hpages
    obtain ⟨h, hstart, hle⟩ := hpages
    obtain ⟨hlow, hhigh⟩ := heapEnd_lt (s := t) hgood
      ⟨h + frames.length, by rw [hend, hstart, Nat.mul_add, Nat.add_assoc], by rw [hused]; omega⟩
    obtain ⟨-, hnone⟩ | ⟨f, m', hf, hroom, -, halloc, hmap, -, -, -, -⟩ :=
      hgood.push t.heapEnd (le_trans (by decide) hlow) (lt_of_le_of_lt hhigh (by decide))
    · rw [hnone] at hframe
      exact absurd rfl hframe
    · rcases hslip with hfull | hno
      · exact ⟨by omega, by omega⟩
      · -- the tables are all in place
        have hzero := hgood.layout.booted.kernel 0 (by decide)
        obtain ⟨g, -, hlent⟩ := allocBlock_some hzero hframe
        have hbad := mapPage_noTable (allocBlock t.machine).1 7 (hlent.reserved hzero) hno
        simp only [halloc, hmap] at hbad
        cases hbad
  · rintro ⟨hbreak, hfree⟩
    obtain ⟨frames, t, hlength, hpath, hgood, hused, hend⟩ :=
      hm.pages (n := sbrkMaxPages) hpages (by omega) hbreak.le
    refine ⟨frames, t, hlength.le, hpath, by rw [hend]; exact hbreak, ?_, .inl hlength⟩
    obtain ⟨-, hfull, -⟩ | ⟨f, -, hclear, -, -, halloc⟩ := Pmm.pmmAllocBlock_cases hgood.layout.booted
    · omega
    · have hlow := hgood.layout.booted.kernelPages_le hclear
      have hkernel : kernelPages = 512 := by decide
      have hphys : (allocBlock t.machine).1 = f * 4096 := congrArg Prod.fst halloc
      omega

end Kernel

def begun (m : Machine) : State where
  machine := m
  programBreak := heapStart
  heapEnd := heapStart

theorem boot_used {m : Machine} (hs : Started bootMachine m) : m.pmm.usedBlocks ≤ 641 := by
  have hcounted : m.pmm.usedBlocks = Bitmap.count m.pmm.bitmap totalBlocks := hs.layout.booted.counted
  have hsub : (Finset.range totalBlocks).filter (Bitmap.test m.pmm.bitmap ·) ⊆ Finset.range 641 := by
    intro f hf
    obtain ⟨hrange, hset⟩ := Finset.mem_filter.mp hf
    rw [Finset.mem_range] at hrange ⊢
    by_contra hge
    rw [(heap_clear_iff hs hrange).mpr (Nat.le_of_not_lt hge)] at hset
    cases hset
  have hcard := Finset.card_le_card hsub
  rw [Finset.card_range] at hcard
  rw [hcounted]
  exact hcard

/-- Asked for 129 pages, `sbrk` fails with a frame more in use than before. -/
theorem sbrk_not_atomic_129 : ∃ m, initPaging bootMachine = some m ∧ ¬Atomic (begun m) 528384 := by
  obtain ⟨m, hinit, hs⟩ := bootMachine_started
  refine ⟨m, hinit, fun hatomic => ?_⟩
  have hgood := (fresh_inv hs).good
  have hruns : Runs (begun m) :=
    { active := hs.layout.active
      zero := hs.layout.booted.kernel 0 (by decide)
      heapEnd := show heapStart < 2 ^ 32 by decide }
  have hused : (begun m).machine.pmm.usedBlocks ≤ 641 := boot_used hs
  have hstart : start (begun m) = begun m := start_of_ne (show heapStart ≠ 0 by decide)
  have htarget : target (begun m) 528384 = heapStart + 4096 * 129 := by
    unfold target
    exact show (heapStart + 528384) % 2 ^ 32 = heapStart + 4096 * 129 by decide
  have hrejected : ¬Rejected (begun m) 528384 := by
    rintro (⟨-, hbig | hwrap⟩ | ⟨hneg, -⟩)
    · exact absurd hbig (by decide)
    · rw [htarget, hstart] at hwrap
      exact absurd hwrap (show ¬heapStart + 4096 * 129 < heapStart by decide)
    · exact absurd hneg (by decide)
  refine (hatomic.undoes hruns (by decide)).loop (show heapStart ≠ 0 by decide) (by decide) hrejected
    ((Good.slips_iff (s := begun m) hgood ⟨0, rfl, Nat.zero_le _⟩).mpr ⟨?_, ?_⟩)
  · rw [htarget]
    exact Nat.add_lt_add_left (by decide) heapStart
  · have htotal := Pmm.totalBlocks_eq
    have hmax : sbrkMaxPages = 128 := rfl
    unfold State.freeCount
    omega

end JexOs.Sbrk
