import JexOs.Proof.Pmm

/-!
# What `pmm_init` leaves free

Which frames `pmm_init` leaves free for every memory map: one for each 4 KB of the length of a region, from the
frame its address lies in, by a frame number that is cut to 32 bits.
-/

namespace JexOs.Pmm

open ByteMem List Option

section Init

variable {info : MultibootInfo} {es : List MmapEntry} {e : MmapEntry} {s s' : State}
  {addr len fuel p k n f q : Nat}

inductive Listed (info : MultibootInfo) : Nat → List MmapEntry → Prop where
  | done {p : Nat} : (info.mmapAddr + info.mmapLength) % 2 ^ 32 ≤ p → Listed info p []
  | entry {p : Nat} {es : List MmapEntry} : p < (info.mmapAddr + info.mmapLength) % 2 ^ 32 →
      Listed info ((p + (info.entryAt p).size + 4) % 2 ^ 32) es →
      Listed info p (info.entryAt p :: es)

structure Provides (info : MultibootInfo) (es : List MmapEntry) : Prop where
  flagged : info.flags.testBit 6 = true
  listed : Listed info info.mmapAddr es

def MmapEntry.Holds (e : MmapEntry) (a : Nat) : Prop := e.addr ≤ a ∧ a < e.addr + e.len

/-- One of the pages that are counted off over the length of the region, from the one its address is in. -/
def MmapEntry.Page (e : MmapEntry) (q : Nat) : Prop :=
  e.addr / 4096 ≤ q ∧ 4096 * (q - e.addr / 4096) < e.len

def MmapEntry.Cut (e : MmapEntry) (q : Nat) : Prop :=
  4096 * q < e.addr ∨ e.addr + e.len < 4096 * (q + 1)

def Available (es : List MmapEntry) (f : Nat) : Prop :=
  ∀ a, 4096 * f ≤ a → a < 4096 * (f + 1) → ∃ e ∈ es, e.type = 1 ∧ e.Holds a

def Untouched (es : List MmapEntry) (f : Nat) : Prop :=
  ∀ a, 4096 * f ≤ a → a < 4096 * (f + 1) → ∀ e ∈ es, e.type ≠ 1 → ¬e.Holds a

def Marked (es : List MmapEntry) (f : Nat) : Prop :=
  ∃ e ∈ es, e.type = 1 ∧ ∃ q, e.Page q ∧ q % 2 ^ 32 = f

theorem freeRegion_step (h : k * 4096 < len) : freeRegion addr len (fuel + 1) (k * 4096) s =
      freeRegion addr len fuel ((k * 4096 + 4096) % 2 ^ 64)
        (if (addr / 4096 + k) % 2 ^ 32 < totalBlocks then s.release ((addr / 4096 + k) % 2 ^ 32) else s) := by
  have hframe : (addr + k * 4096) % 2 ^ 64 / blockSize % 2 ^ 32 = (addr / 4096 + k) % 2 ^ 32 := by
    unfold blockSize
    omega
  rw [freeRegion, if_pos h, hframe]
  rfl

theorem freeRegion_endless (hlen : 2 ^ 64 - 4096 < len) (hk : k * 4096 < 2 ^ 64) :
    freeRegion addr len fuel (k * 4096) s = none := by
  induction fuel generalizing k s with
  | zero => rfl
  | succ fuel ih =>
    rw [freeRegion_step (by omega)]
    rcases lt_or_ge (k * 4096 + 4096) (2 ^ 64) with hinside | hwraps
    · have hnext : (k * 4096 + 4096) % 2 ^ 64 = (k + 1) * 4096 := by omega
      have hbelow : (k + 1) * 4096 < 2 ^ 64 := by rwa [Nat.succ_mul]
      rw [hnext]
      exact ih hbelow
    · have hnext : (k * 4096 + 4096) % 2 ^ 64 = 0 * 4096 := by omega
      have hbelow : 0 * 4096 < 2 ^ 64 := by decide
      rw [hnext]
      exact ih hbelow

theorem freeRegion_ends (addr : Nat) (s : State) (hlen : len ≤ 2 ^ 64 - 4096)
    (hn : len ≤ (k + n) * 4096) (hfuel : n < fuel) :
    ∃ s', freeRegion addr len fuel (k * 4096) s = some s' := by
  induction fuel generalizing k n s with
  | zero => omega
  | succ fuel ih =>
    rcases lt_or_ge (k * 4096) len with hmore | hdone
    · have hnext : (k * 4096 + 4096) % 2 ^ 64 = (k + 1) * 4096 := by omega
      have hpasses : k + 1 + (n - 1) = k + n := by omega
      have hleft : len ≤ (k + 1 + (n - 1)) * 4096 := by rwa [hpasses]
      have hless : n - 1 < fuel := by omega
      rw [freeRegion_step hmore, hnext]
      exact ih _ hleft hless
    · rw [freeRegion, if_neg (by omega)]
      exact ⟨s, rfl⟩

theorem test_released (f g : Nat) : Bitmap.test (if g < totalBlocks then s.release g else s).bitmap f = true ↔
      Bitmap.test s.bitmap f = true ∧ ¬(g < totalBlocks ∧ g = f) := by
  split
  · rename_i hg
    rw [test_release, Bool.and_eq_true, Bool.not_eq_true', decide_eq_false_iff_not]
    constructor
    · rintro ⟨hne, hset⟩
      exact ⟨hset, fun hsame => hne hsame.2.symm⟩
    · rintro ⟨hset, hne⟩
      exact ⟨fun hsame => hne ⟨hg, hsame.symm⟩, hset⟩
  · rename_i hg
    exact ⟨fun hset => ⟨hset, fun hsame => hg hsame.1⟩, fun h => h.1⟩

theorem freeRegion_bits (hlen : len ≤ 2 ^ 64 - 4096) (hrun : freeRegion addr len fuel (k * 4096) s = some s') :
    Bitmap.test s'.bitmap f = true ↔ Bitmap.test s.bitmap f = true ∧
      ¬(f < totalBlocks ∧ ∃ j, k ≤ j ∧ j * 4096 < len ∧ (addr / 4096 + j) % 2 ^ 32 = f) := by
  induction fuel generalizing k s with
  | zero => cases hrun
  | succ fuel ih =>
    rcases lt_or_ge (k * 4096) len with hmore | hdone
    · have hnext : (k * 4096 + 4096) % 2 ^ 64 = (k + 1) * 4096 := by omega
      rw [freeRegion_step hmore, hnext] at hrun
      rw [ih hrun, test_released, and_assoc]
      refine and_congr_right fun _ => ?_
      constructor
      · rintro ⟨hfirst, hrest⟩ ⟨hf, j, hj, hin, hframe⟩
        rcases Nat.eq_or_lt_of_le hj with rfl | hlater
        · exact hfirst ⟨by rwa [hframe], hframe⟩
        · exact hrest ⟨hf, j, hlater, hin, hframe⟩
      · intro hnone
        refine ⟨fun ⟨hg, hframe⟩ => hnone ⟨by rwa [hframe] at hg, k, le_rfl, hmore, hframe⟩, ?_⟩
        rintro ⟨hf, j, hj, hin, hframe⟩
        exact hnone ⟨hf, j, by omega, hin, hframe⟩
    · rw [freeRegion, if_neg (by omega)] at hrun
      cases hrun
      refine ⟨fun hset => ⟨hset, ?_⟩, fun h => h.1⟩
      rintro ⟨-, j, hj, hin, -⟩
      omega

theorem freeRegion_marks (hrun : freeRegion e.addr e.len fuel 0 s = some s') :
    e.len ≤ 2 ^ 64 - 4096 ∧ (Bitmap.test s'.bitmap f = true ↔
      Bitmap.test s.bitmap f = true ∧ ¬(f < totalBlocks ∧ ∃ q, e.Page q ∧ q % 2 ^ 32 = f)) := by
  rw [← Nat.zero_mul 4096] at hrun
  have hlen : e.len ≤ 2 ^ 64 - 4096 := by
    by_contra hlong
    rw [freeRegion_endless (by omega) (by decide)] at hrun
    cases hrun
  refine ⟨hlen, ?_⟩
  rw [freeRegion_bits hlen hrun]
  refine and_congr_right fun _ => not_congr (and_congr_right fun _ => ?_)
  constructor
  · rintro ⟨j, -, hin, hframe⟩
    exact ⟨e.addr / 4096 + j, ⟨Nat.le_add_right _ _, by omega⟩, hframe⟩
  · rintro ⟨q, ⟨hlow, hin⟩, hframe⟩
    exact ⟨q - e.addr / 4096, Nat.zero_le _, by omega, by rwa [Nat.add_sub_cancel' hlow]⟩

theorem Marked.cons_of_ne (h : e.type ≠ 1) : Marked (e :: es) f ↔ Marked es f := by
  unfold Marked
  rw [exists_mem_cons_iff]
  exact or_iff_right fun hfirst => h hfirst.1

theorem Marked.cons_of_eq
    (h : e.type = 1) : Marked (e :: es) f ↔ (∃ q, e.Page q ∧ q % 2 ^ 32 = f) ∨ Marked es f := by
  unfold Marked
  rw [exists_mem_cons_iff]
  exact or_congr_left (and_iff_right h)

theorem mmapWalk_bits (hlisted : Listed info p es) (hrun : mmapWalk info fuel p s = some s') :
    (∀ e ∈ es, e.type = 1 → e.len ≤ 2 ^ 64 - 4096) ∧ ∀ f, f < totalBlocks → (Bitmap.test s'.bitmap f = true ↔
        Bitmap.test s.bitmap f = true ∧ ¬Marked es f) := by
  induction hlisted generalizing fuel s with
  | done hend =>
    cases fuel with
    | zero => cases hrun
    | succ fuel =>
      rw [mmapWalk, if_neg (not_lt.mpr hend)] at hrun
      cases hrun
      refine ⟨fun e he => absurd he not_mem_nil, fun f _ => ⟨fun hset => ⟨hset, ?_⟩, fun h => h.1⟩⟩
      rintro ⟨e, he, -⟩
      cases he
  | @entry p es hmore _ ih =>
    cases fuel with
    | zero => cases hrun
    | succ fuel =>
      rw [mmapWalk, if_pos hmore] at hrun
      dsimp only at hrun
      split at hrun
      · rename_i htype
        cases hregion : freeRegion (info.entryAt p).addr (info.entryAt p).len fuel 0 s with
        | none =>
          rw [hregion] at hrun
          cases hrun
        | some mid =>
          rw [hregion] at hrun
          obtain ⟨hlens, hbits⟩ := ih hrun
          refine ⟨?_, fun f hf => ?_⟩
          · rintro e (_ | ⟨_, he⟩) htype'
            · exact (freeRegion_marks (f := 0) hregion).1
            · exact hlens e he htype'
          · rw [hbits f hf, (freeRegion_marks hregion).2, and_assoc, Marked.cons_of_eq htype, not_or]
            refine and_congr_right fun _ => and_congr_left fun _ => not_congr ?_
            exact and_iff_right hf
      · rename_i htype
        obtain ⟨hlens, hbits⟩ := ih hrun
        refine ⟨?_, fun f hf => ?_⟩
        · rintro e (_ | ⟨_, he⟩) htype'
          · exact absurd htype' htype
          · exact hlens e he htype'
        · rw [hbits f hf, Marked.cons_of_ne htype]

theorem mmapWalk_ends (hlisted : Listed info p es) (hlens : ∀ e ∈ es, e.type = 1 → e.len ≤ 2 ^ 64 - 4096) :
    ∃ n, ∀ fuel, n ≤ fuel → ∀ s, ∃ s', mmapWalk info fuel p s = some s' := by
  induction hlisted with
  | done hend =>
    refine ⟨1, fun fuel hfuel s => ?_⟩
    obtain ⟨fuel, rfl⟩ := Nat.exists_eq_add_of_le' hfuel
    rw [mmapWalk, if_neg (not_lt.mpr hend)]
    exact ⟨s, rfl⟩
  | @entry p es hmore _ ih =>
    obtain ⟨n, hn⟩ := ih fun e he => hlens e (mem_cons_of_mem _ he)
    -- enough for the rest of the map, and for the pages of this region
    refine ⟨n + (info.entryAt p).len + 2, fun fuel hfuel s => ?_⟩
    obtain ⟨fuel, rfl⟩ := Nat.exists_eq_add_of_le' (show 1 ≤ fuel by omega)
    rw [mmapWalk, if_pos hmore]
    dsimp only
    split
    · rename_i htype
      have hlen := hlens _ mem_cons_self htype
      have hpasses : (info.entryAt p).len ≤ (0 + (info.entryAt p).len) * 4096 := by omega
      have henough : (info.entryAt p).len < fuel := by omega
      obtain ⟨mid, hregion⟩ := freeRegion_ends (info.entryAt p).addr s hlen hpasses henough
      rw [hregion]
      exact hn fuel (by omega) mid
    · exact hn fuel (by omega) s

def allUsed : State := { bitmap := fun _ => 0xFF, usedBlocks := totalBlocks }

theorem test_allUsed (f : Nat) : Bitmap.test allUsed.bitmap f = true := by
  have hbit : f % 8 < 8 := Nat.mod_lt _ (by decide)
  have hbyte : (allUsed.bitmap (f / 8)).toNat = 2 ^ 8 - 1 := rfl
  rw [Bitmap.test_eq_testBit, hbyte, Nat.testBit_two_pow_sub_one]
  exact decide_eq_true hbit

theorem Counted.full_iff (h : Counted s) :
    s.usedBlocks = totalBlocks ↔ ∀ f, f < totalBlocks → Bitmap.test s.bitmap f = true := by
  have hcount : s.usedBlocks = Bitmap.count s.bitmap totalBlocks := h
  have hle := Bitmap.count_le s.bitmap totalBlocks
  constructor
  · intro hfull f hf
    by_contra hclear
    have hset := Bitmap.count_set hf (Bool.not_eq_true _ ▸ hclear)
    have hle' := Bitmap.count_le (Bitmap.set s.bitmap f) totalBlocks
    omega
  · intro hall
    by_contra hless
    obtain ⟨f, hf, hclear⟩ := Bitmap.exists_clear_of_count_lt (lt_of_le_of_ne hle (hcount ▸ hless))
    rw [hall f hf] at hclear
    cases hclear

theorem test_freeAboveKernel (hf : f < totalBlocks) :
    Bitmap.test (freeAboveKernel s).bitmap f = true ↔ f < kernelPages ∧ Bitmap.test s.bitmap f = true := by
  have hmem : f ∈ List.range' kernelPages (totalBlocks - kernelPages) ↔ ¬f < kernelPages := by
    rw [List.mem_range'_1]
    omega
  unfold freeAboveKernel
  rw [test_foldl_release, Bool.and_eq_true, Bool.not_eq_true', decide_eq_false_iff_not, hmem, not_not]

theorem freeAboveKernel_counted (h : Counted s) : Counted (freeAboveKernel s) := by
  refine foldl_release_counted h fun f hf => ?_
  have hrange := List.mem_range'_1.mp hf
  omega

theorem test_reserveKernel (h : Counted s) :
    Bitmap.test (reserveKernel s).bitmap f = true ↔ f < kernelPages ∨ Bitmap.test s.bitmap f = true := by
  have hframes : ∀ f ∈ List.range kernelPages, f < totalBlocks :=
    fun f hf => lt_of_lt_of_le (mem_range.mp hf) (by decide)
  have hbits := (reserveKernel_loop h hframes).2 f
  rwa [mem_range] at hbits

theorem pmmInit_eq (h : info.flags.testBit 6 = true) :
    pmmInit fuel info = (mmapWalk info fuel info.mmapAddr allUsed).map fun s =>
      reserveKernel (if s.usedBlocks = totalBlocks then freeAboveKernel s else s) := by
  unfold pmmInit
  simp only
  rw [if_pos h]
  rfl

variable (hmap : Provides info es)

include hmap

theorem pmmInit_free (hinit : pmmInit fuel info = some s) : (∀ e ∈ es, e.type = 1 → e.len ≤ 2 ^ 64 - 4096) ∧
      ∀ f, f < totalBlocks → (Bitmap.test s.bitmap f = false ↔
        kernelPages ≤ f ∧ (Marked es f ∨ ∀ g, g < totalBlocks → ¬Marked es g)) := by
  rw [pmmInit_eq hmap.flagged] at hinit
  obtain ⟨mid, hwalk, rfl⟩ := map_eq_some_iff.mp hinit
  obtain ⟨hlens, hbits⟩ := mmapWalk_bits hmap.listed hwalk
  have hcounted : Counted mid := mmapWalk_counted counted_full hwalk
  have hset : ∀ f, f < totalBlocks → (Bitmap.test mid.bitmap f = true ↔ ¬Marked es f) :=
    fun f hf => (hbits f hf).trans (and_iff_right (test_allUsed f))
  have hfull : mid.usedBlocks = totalBlocks ↔ ∀ g, g < totalBlocks → ¬Marked es g :=
    hcounted.full_iff.trans (forall₂_congr fun g hg => hset g hg)
  refine ⟨hlens, fun f hf => ?_⟩
  rw [← Bool.not_eq_true]
  by_cases hnone : mid.usedBlocks = totalBlocks
  · rw [if_pos hnone, test_reserveKernel (freeAboveKernel_counted hcounted), test_freeAboveKernel hf]
    have hall := hfull.mp hnone
    constructor
    · intro hclear
      exact ⟨Nat.le_of_not_lt fun hlow => hclear (.inl hlow), .inr hall⟩
    · rintro ⟨hlow, -⟩ (hk | ⟨hk, -⟩) <;> omega
  · rw [if_neg hnone, test_reserveKernel hcounted, hset f hf, not_or, not_not, not_lt]
    exact and_congr_right fun _ => (or_iff_left fun hall => hnone (hfull.mpr hall)).symm

theorem pmmInit_ends (hlens : ∀ e ∈ es, e.type = 1 → e.len ≤ 2 ^ 64 - 4096) :
    ∃ fuel s, pmmInit fuel info = some s := by
  obtain ⟨n, hn⟩ := mmapWalk_ends hmap.listed hlens
  obtain ⟨mid, hwalk⟩ := hn n le_rfl allUsed
  exact ⟨n, _, by rw [pmmInit_eq hmap.flagged, hwalk, map_some]⟩

/-- The free frames are available memory and nothing else, the first 2 MB are reserved and the counter is right. -/
structure Sound (es : List MmapEntry) (s : State) : Prop where
  available : ∀ f, f < totalBlocks → Bitmap.test s.bitmap f = false → Available es f
  untouched : ∀ f, f < totalBlocks → Bitmap.test s.bitmap f = false → Untouched es f
  kernel : ∀ f, f < 512 → Bitmap.test s.bitmap f = true
  counted : s.usedBlocks = Bitmap.count s.bitmap totalBlocks

def Kept (q : Nat) : Prop := kernelPages ≤ q % 2 ^ 32 ∧ q % 2 ^ 32 < totalBlocks

/-- A memory map `pmm_init` handles soundly: no other region reaches into a frame that is kept, and where a page
that is kept is cut, the available regions still hold its frame. -/
structure Clean (es : List MmapEntry) : Prop where
  ends : ∀ e ∈ es, e.type = 1 → e.len ≤ 2 ^ 64 - 4096
  reaches : ∃ e ∈ es, e.type = 1 ∧ ∃ q, e.Page q ∧ q % 2 ^ 32 < totalBlocks
  whole : ∀ e ∈ es, e.type = 1 → ∀ q, e.Page q → Kept q → e.Cut q ∨ 2 ^ 32 ≤ q →
    Available es (q % 2 ^ 32)
  apart : ∀ e ∈ es, e.type = 1 → ∀ q, e.Page q → Kept q → ∀ r ∈ es, r.type ≠ 1 →
    r.len = 0 ∨ r.addr + r.len ≤ 4096 * (q % 2 ^ 32) ∨ 4096 * (q % 2 ^ 32 + 1) ≤ r.addr

omit hmap in
theorem Available.marked (h : Available es f) (hf : f < totalBlocks) : Marked es f := by
  obtain ⟨e, he, htype, hlow, hhigh⟩ := h (4096 * f + 4095) (by omega) (by omega)
  have htotal := Pmm.totalBlocks_eq
  exact ⟨e, he, htype, f, ⟨by omega, by omega⟩, by omega⟩

omit hmap in
theorem untouched_iff : Untouched es f ↔ ∀ r ∈ es, r.type ≠ 1 →
    r.len = 0 ∨ r.addr + r.len ≤ 4096 * f ∨ 4096 * (f + 1) ≤ r.addr := by
  constructor
  · intro h r hr htype
    by_contra hmeets
    refine h (max r.addr (4096 * f)) (by omega) (by omega) r hr htype ⟨by omega, by omega⟩
  · intro h a hlow hhigh r hr htype ⟨hstart, hstop⟩
    have hmiss := h r hr htype
    omega

theorem Sound.clean (hinit : pmmInit fuel info = some s) (h : Sound es s) : Clean es := by
  obtain ⟨hlens, hfree⟩ := pmmInit_free hmap hinit
  have hkept : ∀ e ∈ es, e.type = 1 → ∀ q, e.Page q → Kept q →
      Bitmap.test s.bitmap (q % 2 ^ 32) = false :=
    fun e he htype q hpage hkept =>
      (hfree _ hkept.2).mpr ⟨hkept.1, .inl ⟨e, he, htype, q, hpage, rfl⟩⟩
  refine ⟨hlens, ?_, fun e he htype q hpage hq _ => ?_, fun e he htype q hpage hq => ?_⟩
  · -- when nothing is marked, frame 512 is free and not available
    by_contra hnone
    have hunmarked : ∀ g, g < totalBlocks → ¬Marked es g := by
      rintro g hg ⟨e, he, htype, q, hpage, rfl⟩
      exact hnone ⟨e, he, htype, q, hpage, hg⟩
    have hfirst : kernelPages < totalBlocks := by decide
    have hclear := (hfree kernelPages hfirst).mpr ⟨le_rfl, .inr hunmarked⟩
    exact hunmarked _ hfirst ((h.available _ hfirst hclear).marked hfirst)
  · exact h.available _ hq.2 (hkept e he htype q hpage hq)
  · exact untouched_iff.mp (h.untouched _ hq.2 (hkept e he htype q hpage hq))

omit hmap in
theorem Clean.available (h : Clean es) (hlow : kernelPages ≤ f) (hf : f < totalBlocks)
    (hmarked : Marked es f) : Available es f := by
  obtain ⟨e, he, htype, q, hpage, rfl⟩ := hmarked
  by_cases hpart : e.Cut q ∨ 2 ^ 32 ≤ q
  · exact h.whole e he htype q hpage ⟨hlow, hf⟩ hpart
  · rw [not_or, MmapEntry.Cut, not_or] at hpart
    intro a ha ha'
    exact ⟨e, he, htype, by omega, by omega⟩

theorem Clean.sound (hinit : pmmInit fuel info = some s) (h : Clean es) : Sound es s := by
  obtain ⟨hcounted, hkernel⟩ := pmmInit_counted hinit
  obtain ⟨-, hfree⟩ := pmmInit_free hmap hinit
  have hmarked : ∀ f, f < totalBlocks → Bitmap.test s.bitmap f = false → kernelPages ≤ f ∧ Marked es f := by
    intro f hf hclear
    obtain ⟨hlow, hmarked | hnone⟩ := (hfree f hf).mp hclear
    · exact ⟨hlow, hmarked⟩
    · obtain ⟨e, he, htype, q, hpage, hq⟩ := h.reaches
      exact absurd ⟨e, he, htype, q, hpage, rfl⟩ (hnone _ hq)
  refine ⟨fun f hf hclear => ?_, fun f hf hclear => ?_, hkernel, hcounted⟩
  · obtain ⟨hlow, hmark⟩ := hmarked f hf hclear
    exact h.available hlow hf hmark
  · obtain ⟨hlow, e, he, htype, q, hpage, rfl⟩ := hmarked f hf hclear
    exact untouched_iff.mpr (h.apart e he htype q hpage ⟨hlow, hf⟩)

/-- **Initialisation.** For every memory map, `pmm_init` returns and leaves only available memory free exactly when
the map is clean. -/
theorem pmmInit_sound_iff : (∃ fuel s, pmmInit fuel info = some s ∧ Sound es s) ↔ Clean es := by
  constructor
  · rintro ⟨fuel, s, hinit, hsound⟩
    exact hsound.clean hmap hinit
  · intro hclean
    obtain ⟨fuel, s, hinit⟩ := pmmInit_ends hmap hclean.ends
    exact ⟨fuel, s, hinit, hclean.sound hmap hinit⟩

end Init

def mapOf (es : List MmapEntry) : MultibootInfo where
  flags := 64
  mmapAddr := 0x9000
  mmapLength := 24 * es.length
  entryAt := fun p => es.getD ((p - 0x9000) / 24) ⟨20, 0, 0, 0⟩

theorem mapOf_listed {es : List MmapEntry} (hsize : ∀ e ∈ es, e.size = 20)
    (hlength : 0x9000 + 24 * es.length < 2 ^ 32) (n k : Nat) (hn : k + n = es.length) :
    Listed (mapOf es) (0x9000 + 24 * k) (es.drop k) := by
  have hend : ((mapOf es).mmapAddr + (mapOf es).mmapLength) % 2 ^ 32 = 0x9000 + 24 * es.length :=
    Nat.mod_eq_of_lt hlength
  induction n generalizing k with
  | zero =>
    rw [drop_eq_nil_of_le (by omega)]
    exact .done (by omega)
  | succ n ih =>
    have hk : k < es.length := by omega
    have hindex : (0x9000 + 24 * k - 0x9000) / 24 = k := by omega
    have hentry : (mapOf es).entryAt (0x9000 + 24 * k) = es[k] := by
      unfold mapOf
      simp only
      rw [hindex, getD_eq_getElem _ _ hk]
    have hnext : (0x9000 + 24 * k + es[k].size + 4) % 2 ^ 32 = 0x9000 + 24 * (k + 1) := by
      rw [hsize _ (getElem_mem hk)]
      omega
    rw [drop_eq_getElem_cons hk, ← hentry]
    refine .entry (by omega) ?_
    rw [hentry, hnext]
    exact ih (k + 1) (by omega)

theorem mapOf_provides {es : List MmapEntry} (hsize : ∀ e ∈ es, e.size = 20)
    (hlength : 0x9000 + 24 * es.length < 2 ^ 32) : Provides (mapOf es) es :=
  ⟨show Nat.testBit 64 6 = true by decide, mapOf_listed hsize hlength es.length 0 (Nat.zero_add _)⟩

def pcMap : List MmapEntry :=
  [⟨20, 0, 0x9FC00, 1⟩, ⟨20, 0x9FC00, 0x400, 2⟩, ⟨20, 0xF0000, 0x10000, 2⟩, ⟨20, 0x100000, 0x7EE0000, 1⟩,
    ⟨20, 0x7FE0000, 0x20000, 2⟩]

theorem pcMap_clean : Clean pcMap := by
  have hkernel : kernelPages = 512 := by decide
  have hsmall : ∀ e ∈ pcMap, e.type = 1 → ∀ q, e.Page q → Kept q →
      q < 2 ^ 32 ∧ ¬e.Cut q ∧ 512 ≤ q ∧ q < 32736 := by
    intro e he htype q ⟨hlow, hhigh⟩ ⟨hkept, hkept'⟩
    simp only [pcMap, mem_cons, not_mem_nil, or_false] at he
    unfold MmapEntry.Cut
    rcases he with rfl | rfl | rfl | rfl | rfl
    · simp only at hlow hhigh ⊢
      omega
    · cases htype
    · cases htype
    · simp only at hlow hhigh ⊢
      omega
    · cases htype
  refine ⟨by decide, ⟨_, mem_cons_self, rfl, 0, ⟨by decide, by decide⟩, by decide⟩, ?_, ?_⟩
  · intro e he htype q hpage hkept hpart
    obtain ⟨hless, hwhole, -, -⟩ := hsmall e he htype q hpage hkept
    rcases hpart with hcut | hlarge
    · exact absurd hcut hwhole
    · omega
  · intro e he htype q hpage hkept r hr hrtype
    obtain ⟨hless, -, hlow, hhigh⟩ := hsmall e he htype q hpage hkept
    simp only [pcMap, mem_cons, not_mem_nil, or_false] at hr
    rcases hr with rfl | rfl | rfl | rfl | rfl
    · exact absurd rfl hrtype
    · simp only
      omega
    · simp only
      omega
    · exact absurd rfl hrtype
    · simp only
      omega

theorem pmmInit_sound_iff_pc : ∃ fuel s, pmmInit fuel (mapOf pcMap) = some s ∧ Sound pcMap s :=
  (pmmInit_sound_iff (mapOf_provides (by decide) (by decide))).mpr pcMap_clean

def halfPage : List MmapEntry := [⟨20, 0x200000, 0x800, 1⟩]

/-- Frame 512 is free, and half of it is no memory. -/
theorem pmmInit_not_sound_halfPage : ¬∃ fuel s, pmmInit fuel (mapOf halfPage) = some s ∧ Sound halfPage s := by
  rintro ⟨fuel, s, hinit, hsound⟩
  have hclean := hsound.clean (mapOf_provides (by decide) (by decide)) hinit
  have hpage : (⟨20, 0x200000, 0x800, 1⟩ : MmapEntry).Page 512 := ⟨by decide, by decide⟩
  have hcut : (⟨20, 0x200000, 0x800, 1⟩ : MmapEntry).Cut 512 := .inr (by decide)
  have havailable := hclean.whole _ mem_cons_self rfl 512 hpage ⟨by decide, by decide⟩ (.inl hcut)
  obtain ⟨e, he, -, -, hhigh⟩ := havailable 0x200800 (by decide) (by decide)
  rw [mem_singleton.mp he] at hhigh
  exact absurd hhigh (by decide)

end JexOs.Pmm
