import JexOs.Pmm
import Mathlib.Data.Nat.Count

/-!
# What the physical memory manager keeps

The counter is a fact about one state and is carried by `Counted`; who owns which frame is carried by `Inv`.
-/

namespace JexOs.Pmm

open ByteMem List

def Counted (s : State) : Prop := s.usedBlocks = Bitmap.count s.bitmap totalBlocks

variable {frame i j n count fuel f k : Nat} {s s' s₀ : State} {bitmap : Mem} {info : MultibootInfo}
  {reserved : Nat → Bool}

theorem Counted.markUsed (hs : Counted s) (hframe : frame < totalBlocks)
    (hclear : Bitmap.test s.bitmap frame = false) : Counted (s.markUsed frame) := by
  unfold Counted State.markUsed
  rw [Bitmap.count_set hframe hclear, hs]

theorem Counted.release (hs : Counted s) (hframe : frame < totalBlocks) : Counted (s.release frame) := by
  unfold State.release
  split
  · rename_i hset
    have hcount := Bitmap.count_clear hframe hset
    unfold Counted State.markFree
    unfold Counted at hs
    simp only
    omega
  · exact hs

theorem test_release (s : State) (frame f : Nat) :
    Bitmap.test (s.release frame).bitmap f = (!decide (f = frame) && Bitmap.test s.bitmap f) := by
  unfold State.release
  split
  · exact Bitmap.test_clear s.bitmap frame f
  · rename_i hclear
    by_cases heq : f = frame
    · subst heq
      simpa using hclear
    · simp [heq]

/-! ### The two searches -/

theorem test_of_full_word (hword : load32 bitmap (i * 4) = 0xFFFFFFFF)
    (hj : j < 32) : Bitmap.test bitmap (i * 32 + j) = true := by
  have hbyte : (bitmap ((i * 32 + j) / 8)).toNat = 255 := by
    have h0 := (bitmap (i * 4)).toNat_lt
    have h1 := (bitmap (i * 4 + 1)).toNat_lt
    have h2 := (bitmap (i * 4 + 2)).toNat_lt
    unfold load32 at hword
    have hcases : (i * 32 + j) / 8 = i * 4 ∨ (i * 32 + j) / 8 = i * 4 + 1 ∨
        (i * 32 + j) / 8 = i * 4 + 2 ∨ (i * 32 + j) / 8 = i * 4 + 3 := by omega
    rcases hcases with h | h | h | h <;> rw [h] <;> omega
  have hbit : (i * 32 + j) % 8 < 8 := Nat.mod_lt _ (by decide)
  rw [Bitmap.test_eq_testBit, hbyte, show (255 : Nat) = 2 ^ 8 - 1 from rfl, Nat.testBit_two_pow_sub_one]
  exact decide_eq_true hbit

theorem findSome?_range_some {α : Type} {f : Nat → Option α} {a : α}
    (hfound : (List.range n).findSome? f = some a) :
    ∃ i, i < n ∧ f i = some a ∧ ∀ k, k < i → f k = none := by
  induction n with
  | zero => cases hfound
  | succ n ih =>
    rw [range_succ, findSome?_append] at hfound
    cases hprev : (List.range n).findSome? f with
    | some b =>
      rw [hprev] at hfound
      cases hfound
      obtain ⟨i, hi, hfi, hbelow⟩ := ih hprev
      exact ⟨i, by omega, hfi, hbelow⟩
    | none =>
      rw [hprev] at hfound
      refine ⟨n, by omega, ?_, fun k hk => ?_⟩
      · simpa using hfound
      · exact findSome?_eq_none_iff.mp hprev k (mem_range.mpr hk)

theorem test_of_word_none (hnone : (if load32 bitmap (i * 4) ≠ 0xFFFFFFFF then
      (List.range 32).findSome? fun j =>
        if Bitmap.test bitmap (i * 32 + j) then none else some (i * 32 + j)
    else none) = none) (hj : j < 32) : Bitmap.test bitmap (i * 32 + j) = true := by
  split at hnone
  · have hbit := findSome?_eq_none_iff.mp hnone j (mem_range.mpr hj)
    split at hbit
    · assumption
    · cases hbit
  · rename_i hfull
    exact test_of_full_word (not_not.mp hfull) hj

theorem bitmapFirstFree_some (hfound : bitmapFirstFree bitmap = some frame) :
    frame < totalBlocks ∧ Bitmap.test bitmap frame = false ∧ ∀ f, f < frame → Bitmap.test bitmap f = true := by
  obtain ⟨i, hi, hword, hfull⟩ := findSome?_range_some hfound
  split at hword
  · obtain ⟨j, hj, hbit, hset⟩ := findSome?_range_some hword
    split at hbit
    · cases hbit
    · rename_i hclear
      cases hbit
      refine ⟨by omega, Bool.not_eq_true _ ▸ hclear, fun f hf => ?_⟩
      have hsplit : f / 32 * 32 + f % 32 = f := Nat.div_add_mod' f 32
      rw [← hsplit]
      by_cases hsame : f / 32 = i
      · have hbelow := hset (f % 32) (by omega)
        rw [← hsame] at hbelow
        split at hbelow
        · assumption
        · cases hbelow
      · exact test_of_word_none (hfull (f / 32) (by omega)) (Nat.mod_lt f (by decide))
  · cases hword

theorem bitmapFirstFree_none (hnone : bitmapFirstFree bitmap = none) :
    ∀ frame, frame < totalBlocks → Bitmap.test bitmap frame = true := by
  intro frame hframe
  have htotal := Pmm.totalBlocks_eq
  have hsplit : frame / 32 * 32 + frame % 32 = frame := Nat.div_add_mod' frame 32
  unfold bitmapFirstFree at hnone
  rw [findSome?_eq_none_iff] at hnone
  rw [← hsplit]
  exact test_of_word_none (hnone (frame / 32) (mem_range.mpr (by omega))) (Nat.mod_lt frame (by decide))

theorem lookAhead_found {freeCount : Nat} (hfound : lookAhead bitmap count n j freeCount = .found) :
    freeCount < count ∧ count ≤ freeCount + n ∧ ∀ k, k < count - freeCount →
    Bitmap.test bitmap (j + k) = false := by
  induction n generalizing j freeCount with
  | zero => cases hfound
  | succ n ih =>
    rw [lookAhead] at hfound
    split at hfound
    · cases hfound
    · rename_i hclear
      rw [Bool.not_eq_true] at hclear
      split at hfound
      · refine ⟨by omega, by omega, fun k hk => ?_⟩
        obtain rfl : k = 0 := by omega
        exact hclear
      · obtain ⟨hlt, hle, hbits⟩ := ih hfound
        refine ⟨by omega, by omega, fun k hk => ?_⟩
        cases k with
        | zero => exact hclear
        | succ k =>
          have hbit := hbits k (by omega)
          rwa [show j + 1 + k = j + (k + 1) by omega] at hbit

theorem firstFreeFrom_some (hfound : firstFreeFrom bitmap count fuel i = some frame) :
    0 < count ∧ frame + count ≤ totalBlocks ∧ ∀ k, k < count → Bitmap.test bitmap (frame + k) = false := by
  induction fuel generalizing i with
  | zero => cases hfound
  | succ fuel ih =>
    rw [firstFreeFrom] at hfound
    split at hfound
    · split at hfound
      · exact ih hfound
      · split at hfound
        · rename_i hlook
          cases hfound
          obtain ⟨hlt, hle, hbits⟩ := lookAhead_found hlook
          exact ⟨hlt, by omega, hbits⟩
        · exact ih hfound
        · exact ih hfound
    · cases hfound

theorem bitmapFirstFreeContiguous_some (hfound : bitmapFirstFreeContiguous bitmap count = some frame) :
    0 < count ∧ frame + count ≤ totalBlocks ∧ ∀ k, k < count → Bitmap.test bitmap (frame + k) = false := by
  unfold bitmapFirstFreeContiguous at hfound
  split at hfound
  · cases hfound
  · split at hfound
    · obtain ⟨hframe, hclear, -⟩ := bitmapFirstFree_some hfound
      refine ⟨by omega, by omega, fun k hk => ?_⟩
      obtain rfl : k = 0 := by omega
      exact hclear
    · exact firstFreeFrom_some hfound

/-! ### Initialisation keeps the counter right -/

theorem freeRegion_counted {addr len : Nat} (hs : Counted s)
    (hrun : freeRegion addr len fuel i s = some s') : Counted s' := by
  induction fuel generalizing i s with
  | zero => cases hrun
  | succ fuel ih =>
    rw [freeRegion] at hrun
    split at hrun
    · refine ih ?_ hrun
      split
      · rename_i hframe
        exact hs.release hframe
      · exact hs
    · cases hrun
      exact hs

theorem mmapWalk_counted {p : Nat} (hs : Counted s) (hrun : mmapWalk info fuel p s = some s') :
    Counted s' := by
  induction fuel generalizing p s with
  | zero => cases hrun
  | succ fuel ih =>
    rw [mmapWalk] at hrun
    split at hrun
    · dsimp only at hrun
      split at hrun
      · split at hrun
        · cases hrun
        · rename_i hregion
          exact ih (freeRegion_counted hs hregion) hrun
      · exact ih hs hrun
    · cases hrun
      exact hs

theorem foldl_release_counted {frames : List Nat} (hs : Counted s)
    (hframes : ∀ f ∈ frames, f < totalBlocks) : Counted (frames.foldl State.release s) := by
  induction frames generalizing s with
  | nil => exact hs
  | cons f frames ih =>
    exact ih (hs.release (hframes f mem_cons_self)) fun g hg => hframes g (mem_cons_of_mem f hg)

theorem test_foldl_release (frames : List Nat) (s : State) (f : Nat) :
    Bitmap.test (frames.foldl State.release s).bitmap f =
      (!decide (f ∈ frames) && Bitmap.test s.bitmap f) := by
  induction frames generalizing s with
  | nil => simp
  | cons g frames ih =>
    rw [foldl_cons, ih, test_release]
    by_cases heq : f = g <;> simp [heq]

theorem reserveKernel_loop {frames : List Nat} (hs : Counted s) (hframes : ∀ f ∈ frames, f < totalBlocks) :
    let s' := frames.foldl (fun s i => if Bitmap.test s.bitmap i then s else s.markUsed i) s
    Counted s' ∧ ∀ f, Bitmap.test s'.bitmap f = true ↔
      f ∈ frames ∨ Bitmap.test s.bitmap f = true := by
  induction frames generalizing s with
  | nil => exact ⟨hs, fun f => by simp⟩
  | cons g frames ih =>
    have htail : ∀ f ∈ frames, f < totalBlocks := fun f hf =>
      hframes f (mem_cons_of_mem g hf)
    simp only [foldl_cons]
    by_cases hset : Bitmap.test s.bitmap g = true
    · rw [if_pos hset]
      obtain ⟨hcounted, hbits⟩ := ih hs htail
      refine ⟨hcounted, fun f => ?_⟩
      rw [hbits f, mem_cons]
      constructor
      · rintro (hf | hf)
        · exact .inl (.inr hf)
        · exact .inr hf
      · rintro ((rfl | hf) | hf)
        · exact .inr hset
        · exact .inl hf
        · exact .inr hf
    · rw [if_neg hset]
      rw [Bool.not_eq_true] at hset
      obtain ⟨hcounted, hbits⟩ := ih (hs.markUsed (hframes g mem_cons_self) hset) htail
      refine ⟨hcounted, fun f => ?_⟩
      have hmark : Bitmap.test (s.markUsed g).bitmap f =
          (decide (f = g) || Bitmap.test s.bitmap f) := Bitmap.test_set s.bitmap g f
      rw [hbits f, hmark, mem_cons, Bool.or_eq_true, decide_eq_true_eq]
      tauto

theorem test_full (i : Nat) : Bitmap.test (fun _ => 0xFF) i = true := by
  have hbit : i % 8 < 8 := Nat.mod_lt _ (by decide)
  rw [Bitmap.test_eq_testBit, show (0xFF : UInt8).toNat = 2 ^ 8 - 1 from rfl, Nat.testBit_two_pow_sub_one]
  exact decide_eq_true hbit

theorem counted_full : Counted { bitmap := fun _ => 0xFF, usedBlocks := totalBlocks } := by
  have hall : (Finset.range totalBlocks).filter (Bitmap.test (fun _ => 0xFF) ·) =
      Finset.range totalBlocks := Finset.filter_true_of_mem fun i _ => test_full i
  unfold Counted Bitmap.count
  rw [hall, Finset.card_range]

theorem pmmInit_counted (hinit : pmmInit fuel info = some s) :
    Counted s ∧ ∀ f, f < kernelPages → Bitmap.test s.bitmap f = true := by
  obtain ⟨mapped, hmapped, rfl⟩ := Option.map_eq_some_iff.mp hinit
  have hcounted : Counted mapped := by
    split at hmapped
    · exact mmapWalk_counted counted_full hmapped
    · cases hmapped
      exact counted_full
  have hfallback : Counted
      (if mapped.usedBlocks = totalBlocks then freeAboveKernel mapped else mapped) := by
    split
    · refine foldl_release_counted hcounted fun f hf => ?_
      have hrange := List.mem_range'_1.mp hf
      omega
    · exact hcounted
  have hframes : ∀ f ∈ List.range kernelPages, f < totalBlocks :=
    fun f hf => lt_of_lt_of_le (mem_range.mp hf) (by decide)
  obtain ⟨hreserved, hbits⟩ := reserveKernel_loop hfallback hframes
  exact ⟨hreserved, fun f hf => (hbits f).mpr (.inl (mem_range.mpr hf))⟩

/-- What holds of the manager from `pmm_init` on, whoever uses it. -/
structure Booted (s : State) : Prop where
  counted : Counted s
  kernel : ∀ f, f < kernelPages → Bitmap.test s.bitmap f = true

theorem Booted.markUsed (hs : Booted s) (hframe : frame < totalBlocks)
    (hclear : Bitmap.test s.bitmap frame = false) : Booted (s.markUsed frame) :=
  { counted := hs.counted.markUsed hframe hclear
    kernel := fun f hf => by
      rw [State.markUsed, Bitmap.test_set, hs.kernel f hf, Bool.or_true] }

theorem Booted.kernelPages_le (hs : Booted s) (hclear : Bitmap.test s.bitmap f = false) : kernelPages ≤ f := by
  by_contra hlow
  rw [hs.kernel f (by omega)] at hclear
  cases hclear

theorem pmmAllocBlock_cases (hs : Booted s) :
    ((∀ f, f < totalBlocks → Bitmap.test s.bitmap f = true) ∧ s.usedBlocks = totalBlocks ∧
      pmmAllocBlock s = (0, s)) ∨
      ∃ frame, frame < totalBlocks ∧ Bitmap.test s.bitmap frame = false ∧
        (∀ f, f < frame → Bitmap.test s.bitmap f = true) ∧ s.usedBlocks < totalBlocks ∧
        pmmAllocBlock s = (frame * blockSize, s.markUsed frame) := by
  have hcounted : s.usedBlocks = Bitmap.count s.bitmap totalBlocks := hs.counted
  unfold pmmAllocBlock
  cases hsearch : bitmapFirstFree s.bitmap with
  | none =>
    have hfull := bitmapFirstFree_none hsearch
    refine .inl ⟨hfull, ?_, by split <;> rfl⟩
    by_contra hless
    have hle := Bitmap.count_le s.bitmap totalBlocks
    obtain ⟨f, hf, hclear⟩ :=
      Bitmap.exists_clear_of_count_lt (show Bitmap.count s.bitmap totalBlocks < totalBlocks by omega)
    rw [hfull f hf] at hclear
    cases hclear
  | some frame =>
    obtain ⟨hframe, hclear, hlowest⟩ := bitmapFirstFree_some hsearch
    have hroom : s.usedBlocks < totalBlocks := by
      have hcount := Bitmap.count_set hframe hclear
      have hle := Bitmap.count_le (Bitmap.set s.bitmap frame) totalBlocks
      omega
    refine .inr ⟨frame, hframe, hclear, hlowest, hroom, ?_⟩
    rw [if_neg (not_le.mpr hroom)]

/-! ### The order of allocation -/

def freeBelow (s : State) (f : Nat) : Nat := Nat.count (fun g => Bitmap.test s.bitmap g = false) f

theorem freeBelow_succ (s : State) (f : Nat) :
    freeBelow s (f + 1) = freeBelow s f + if Bitmap.test s.bitmap f = false then 1 else 0 :=
  Nat.count_succ _ f

theorem freeBelow_inj {g : Nat} (hf : Bitmap.test s.bitmap f = false)
    (hg : Bitmap.test s.bitmap g = false) (heq : freeBelow s f = freeBelow s g) : f = g :=
  Nat.count_injective hf hg heq

theorem exists_free_of_lt_freeBelow (hk : k < freeBelow s f) :
    ∃ g, g < f ∧ Bitmap.test s.bitmap g = false ∧ freeBelow s g = k := by
  induction f with
  | zero => simp [freeBelow] at hk
  | succ f ih =>
    by_cases hlt : k < freeBelow s f
    · obtain ⟨g, hg, hfree, hcount⟩ := ih hlt
      exact ⟨g, by omega, hfree, hcount⟩
    · rw [freeBelow_succ] at hk
      split at hk
      · exact ⟨f, by omega, by assumption, by omega⟩
      · omega

structure Taken (s₀ s : State) (k : Nat) : Prop where
  booted : Booted s
  bits : ∀ f, f < totalBlocks →
    (Bitmap.test s.bitmap f = true ↔ Bitmap.test s₀.bitmap f = true ∨ freeBelow s₀ f < k)

theorem Taken.start (hs : Booted s) : Taken s s 0 :=
  { booted := hs
    bits := fun f _ => by simp }

theorem Taken.clear_iff (htaken : Taken s₀ s k) (hf : f < totalBlocks) :
    Bitmap.test s.bitmap f = false ↔ Bitmap.test s₀.bitmap f = false ∧ k ≤ freeBelow s₀ f := by
  rw [← Bool.not_eq_true, htaken.bits f hf, not_or, Bool.not_eq_true, not_lt]

theorem Taken.alloc (htaken : Taken s₀ s k) : (freeBelow s₀ totalBlocks ≤ k ∧ pmmAllocBlock s = (0, s)) ∨
      ∃ frame, frame < totalBlocks ∧ Bitmap.test s₀.bitmap frame = false ∧
        freeBelow s₀ frame = k ∧ Bitmap.test s.bitmap frame = false ∧
        pmmAllocBlock s = (frame * blockSize, s.markUsed frame) ∧ Taken s₀ (s.markUsed frame) (k + 1) := by
  obtain ⟨hfull, -, hnone⟩ | ⟨frame, hframe, hclear, hlowest, -, halloc⟩ := pmmAllocBlock_cases htaken.booted
  · refine .inl ⟨?_, hnone⟩
    by_contra hlt
    obtain ⟨g, hg, hfree, hcount⟩ := exists_free_of_lt_freeBelow (not_le.mp hlt)
    have hset := hfull g hg
    rw [htaken.bits g hg, hfree, hcount] at hset
    simp at hset
  · obtain ⟨hfree, hle⟩ := (htaken.clear_iff hframe).mp hclear
    have hcount : freeBelow s₀ frame = k := by
      by_contra hne
      obtain ⟨g, hg, hgfree, hgcount⟩ := exists_free_of_lt_freeBelow (lt_of_le_of_ne hle (Ne.symm hne))
      have hset := hlowest g hg
      rw [htaken.bits g (by omega), hgfree, hgcount] at hset
      simp at hset
    refine .inr ⟨frame, hframe, hfree, hcount, hclear, halloc,
      { booted := htaken.booted.markUsed hframe hclear
        bits := fun f hf => ?_ }⟩
    have hmark : Bitmap.test (s.markUsed frame).bitmap f =
        (decide (f = frame) || Bitmap.test s.bitmap f) := Bitmap.test_set s.bitmap frame f
    rw [hmark, Bool.or_eq_true, decide_eq_true_eq, htaken.bits f hf]
    constructor
    · rintro (rfl | hset | hlt)
      · exact .inr (by omega)
      · exact .inl hset
      · exact .inr (by omega)
    · rintro (hset | hlt)
      · exact .inr (.inl hset)
      · by_cases hlast : freeBelow s₀ f = k
        · by_cases hffree : Bitmap.test s₀.bitmap f = false
          · exact .inl (freeBelow_inj hffree hfree (hlast.trans hcount.symm))
          · exact .inr (.inl (Bool.not_eq_false _ ▸ hffree))
        · exact .inr (.inr (by omega))

/-! ### Live allocations -/

structure Alloc where
  first : Nat
  count : Nat
  deriving DecidableEq

def Alloc.Covers (a : Alloc) (frame : Nat) : Prop := a.first ≤ frame ∧ frame < a.first + a.count

def Alloc.Disjoint (a b : Alloc) : Prop := ∀ frame, a.Covers frame → ¬ b.Covers frame

def grant (p count : Nat) (live : List Alloc) : List Alloc :=
  if p = 0 then live else ⟨p / blockSize, count⟩ :: live

/-- One call by a client that frees only what it holds, with the count it asked for. -/
inductive Step : State × List Alloc → State × List Alloc → Prop
  | allocBlock (s : State) (live : List Alloc) :
      Step (s, live) ((pmmAllocBlock s).2, grant (pmmAllocBlock s).1 1 live)
  | allocBlocks (s : State) (live : List Alloc) (count : Nat) (hcount : count < 2 ^ 32) :
      Step (s, live) ((pmmAllocBlocks s count).2, grant (pmmAllocBlocks s count).1 count live)
  | freeBlock (s : State) (live : List Alloc) (a : Alloc) (hlive : a ∈ live)
      (hone : a.count = 1) :
      Step (s, live) (pmmFreeBlock s (a.first * blockSize), live.erase a)
  | freeBlocks (s : State) (live : List Alloc) (a : Alloc) (hlive : a ∈ live) :
      Step (s, live) (pmmFreeBlocks s (a.first * blockSize) a.count, live.erase a)

/-- The bitmap is the frames reserved at initialisation and the frames of live allocations, and no
frame is in two of them. -/
structure Inv (reserved : Nat → Bool) (s : State) (live : List Alloc) : Prop where
  counted : Counted s
  bits : ∀ f, f < totalBlocks →
    (Bitmap.test s.bitmap f = true ↔ reserved f = true ∨ ∃ a ∈ live, a.Covers f)
  apart : live.Pairwise Alloc.Disjoint
  nonempty : ∀ a ∈ live, 0 < a.count
  below : ∀ a ∈ live, a.first + a.count ≤ totalBlocks
  fresh : ∀ a ∈ live, ∀ f, a.Covers f → reserved f = false

theorem Inv.init (hs : Counted s) : Inv (Bitmap.test s.bitmap) s [] :=
  { counted := hs
    bits := fun f _ => by simp
    apart := List.Pairwise.nil
    nonempty := by simp
    below := by simp
    fresh := by simp }

variable {live : List Alloc}

theorem Inv.take {a : Alloc} (hs : Inv reserved s live) (hcounted : Counted s') (hpos : 0 < a.count)
    (hbelow : a.first + a.count ≤ totalBlocks) (hclear : ∀ f, a.Covers f → Bitmap.test s.bitmap f = false)
    (hbits : ∀ f, f < totalBlocks →
      (Bitmap.test s'.bitmap f = true ↔ a.Covers f ∨ Bitmap.test s.bitmap f = true)) :
    Inv reserved s' (a :: live) := by
  have hunowned : ∀ f, a.Covers f → reserved f = false ∧ ∀ b ∈ live, ¬ b.Covers f := by
    intro f hf
    have hlt : f < totalBlocks := lt_of_lt_of_le hf.2 hbelow
    have hnot := mt (hs.bits f hlt).mpr (by simp [hclear f hf])
    push Not at hnot
    exact ⟨Bool.not_eq_true _ ▸ hnot.1, hnot.2⟩
  exact
    { counted := hcounted
      bits := fun f hf => by
        rw [hbits f hf, hs.bits f hf, exists_mem_cons_iff]
        tauto
      apart := pairwise_cons.mpr
        ⟨fun b hb f hf => (hunowned f hf).2 b hb, hs.apart⟩
      nonempty := forall_mem_cons.mpr ⟨hpos, hs.nonempty⟩
      below := forall_mem_cons.mpr ⟨hbelow, hs.below⟩
      fresh := forall_mem_cons.mpr ⟨fun f hf => (hunowned f hf).1, hs.fresh⟩ }

theorem Inv.drop {a : Alloc} (hs : Inv reserved s live) (hlive : a ∈ live) (hcounted : Counted s')
    (hbits : ∀ f, f < totalBlocks →
      (Bitmap.test s'.bitmap f = true ↔ ¬ a.Covers f ∧ Bitmap.test s.bitmap f = true)) :
    Inv reserved s' (live.erase a) := by
  have hperm := perm_cons_erase hlive
  have hapart : ∀ b ∈ live.erase a, a.Disjoint b := by
    have hpair := (hperm.pairwise_iff (R := Alloc.Disjoint) (fun {x y} h f hy hx => h f hx hy)).mp hs.apart
    exact (pairwise_cons.mp hpair).1
  have hsub : ∀ b ∈ live.erase a, b ∈ live := fun b hb => mem_of_mem_erase hb
  exact
    { counted := hcounted
      bits := fun f hf => by
        rw [hbits f hf, hs.bits f hf]
        constructor
        · rintro ⟨hnot, hreserved | ⟨b, hb, hcovers⟩⟩
          · exact .inl hreserved
          · have hne : b ≠ a := fun heq => hnot (heq ▸ hcovers)
            exact .inr ⟨b, (mem_erase_of_ne hne).mpr hb, hcovers⟩
        · rintro (hreserved | ⟨b, hb, hcovers⟩)
          · refine ⟨fun hcovers => ?_, .inl hreserved⟩
            simp [hs.fresh a hlive f hcovers] at hreserved
          · exact ⟨fun ha => hapart b hb f ha hcovers, .inr ⟨b, hsub b hb, hcovers⟩⟩
      apart := hs.apart.sublist erase_sublist
      nonempty := fun b hb => hs.nonempty b (hsub b hb)
      below := fun b hb => hs.below b (hsub b hb)
      fresh := fun b hb => hs.fresh b (hsub b hb) }

theorem Inv.perm {live' : List Alloc} (hs : Inv reserved s live) (hperm : live.Perm live') :
    Inv reserved s live' :=
  { counted := hs.counted
    bits := fun f hf => by
      rw [hs.bits f hf]
      simp only [hperm.mem_iff]
    apart := (hperm.pairwise_iff fun {_ _} h f hy hx => h f hx hy).mp hs.apart
    nonempty := fun a ha => hs.nonempty a (hperm.mem_iff.mpr ha)
    below := fun a ha => hs.below a (hperm.mem_iff.mpr ha)
    fresh := fun a ha => hs.fresh a (hperm.mem_iff.mpr ha) }

/-! ### The four operations -/

theorem test_foldl_set (bitmap : Mem) (frame n f : Nat) :
    Bitmap.test ((List.range n).foldl (fun b i => Bitmap.set b (frame + i)) bitmap) f =
      (decide (frame ≤ f ∧ f < frame + n) || Bitmap.test bitmap f) := by
  induction n with
  | zero =>
    have hempty : ¬ (frame ≤ f ∧ f < frame + 0) := by omega
    rw [decide_eq_false hempty, Bool.false_or]
    rfl
  | succ n ih =>
    rw [range_succ, foldl_append, foldl_cons, foldl_nil, Bitmap.test_set, ih,
      ← Bool.or_assoc, ← Bool.decide_or]
    congr 2
    rw [eq_iff_iff]
    omega

theorem count_foldl_set (hbelow : frame + n ≤ totalBlocks)
    (hclear : ∀ k, k < n → Bitmap.test bitmap (frame + k) = false) :
    Bitmap.count ((List.range n).foldl (fun b i => Bitmap.set b (frame + i)) bitmap) totalBlocks =
      Bitmap.count bitmap totalBlocks + n := by
  induction n with
  | zero => rw [range_zero, foldl_nil, Nat.add_zero]
  | succ n ih =>
    have hstep := ih (by omega) fun k hk => hclear k (by omega)
    have hlast : ¬ (frame ≤ frame + n ∧ frame + n < frame + n) := by omega
    rw [range_succ, foldl_append, foldl_cons, foldl_nil, Bitmap.count_set (by omega), hstep]
    · omega
    · rw [test_foldl_set, hclear n (by omega), decide_eq_false hlast, Bool.false_or]

theorem not_reserved_of_clear
    (hs : Inv reserved s live) (hf : f < totalBlocks) (hclear : Bitmap.test s.bitmap f = false) :
    reserved f = false := by
  by_contra hreserved
  rw [Bool.not_eq_false] at hreserved
  have hset := (hs.bits f hf).mpr (.inl hreserved)
  simp [hclear] at hset

section Operations

variable {reserved : Nat → Bool} {s : State} {live : List Alloc}
  (hkernel : ∀ f, f < kernelPages → reserved f = true) (hs : Inv reserved s live)

include hkernel hs

theorem kernelPages_le_of_clear (hf : f < totalBlocks) (hclear : Bitmap.test s.bitmap f = false) :
    kernelPages ≤ f := by
  by_contra hlow
  have hfree := not_reserved_of_clear hs hf hclear
  rw [hkernel f (by omega)] at hfree
  cases hfree

variable {a : Alloc} {live' : List Alloc}

theorem kernelPages_le_of_live (ha : a ∈ live) : kernelPages ≤ a.first := by
  by_contra hlow
  have hpos := hs.nonempty a ha
  have hfree := hs.fresh a ha a.first ⟨le_rfl, by omega⟩
  rw [hkernel a.first (by omega)] at hfree
  cases hfree

omit hkernel hs in
theorem grant_frame (hlow : kernelPages ≤ frame) :
    grant (frame * blockSize) count live = ⟨frame, count⟩ :: live := by
  have hpos : 0 < kernelPages := by decide
  have hsize : 0 < blockSize := by decide
  have hne : frame * blockSize ≠ 0 := Nat.mul_ne_zero (by omega) (by omega)
  unfold grant
  rw [if_neg hne, Nat.mul_div_cancel frame hsize]

theorem pmmAllocBlock_inv : Inv reserved (pmmAllocBlock s).2 (grant (pmmAllocBlock s).1 1 live) := by
  unfold pmmAllocBlock
  split
  · exact hs
  · cases hsearch : bitmapFirstFree s.bitmap with
    | none => exact hs
    | some frame =>
      obtain ⟨hframe, hclear, -⟩ := bitmapFirstFree_some hsearch
      have hlow := kernelPages_le_of_clear hkernel hs hframe hclear
      simp only
      rw [grant_frame hlow]
      refine hs.take (hs.counted.markUsed hframe hclear) Nat.one_pos hframe ?_ ?_
      · intro f hf
        obtain rfl : f = frame := by
          have := hf.1
          have := hf.2
          simp only at *
          omega
        exact hclear
      · intro f _
        rw [State.markUsed, Bitmap.test_set]
        simp only [Bool.or_eq_true, decide_eq_true_eq, Alloc.Covers]
        refine or_congr_left ?_
        omega

theorem pmmAllocBlocks_inv (count : Nat) :
    Inv reserved (pmmAllocBlocks s count).2 (grant (pmmAllocBlocks s count).1 count live) := by
  unfold pmmAllocBlocks
  split
  · exact hs
  · cases hsearch : bitmapFirstFreeContiguous s.bitmap count with
    | none => exact hs
    | some frame =>
      obtain ⟨hpos, hbelow, hclear⟩ := bitmapFirstFreeContiguous_some hsearch
      have hlow : kernelPages ≤ frame := kernelPages_le_of_clear hkernel hs (by omega) (hclear 0 hpos)
      rw [grant_frame hlow]
      refine hs.take ?_ hpos hbelow ?_ ?_
      · unfold Counted
        rw [count_foldl_set hbelow hclear, hs.counted]
      · intro f hf
        have hbit := hclear (f - frame) (by have := hf.2; have := hf.1; simp only at *; omega)
        rwa [Nat.add_sub_cancel' hf.1] at hbit
      · intro f _
        rw [test_foldl_set]
        simp only [Bool.or_eq_true, decide_eq_true_eq, Alloc.Covers]

omit hkernel in
theorem pmmFreeBlock_inv (hlive : a ∈ live) (hone : a.count = 1) :
    Inv reserved (pmmFreeBlock s (a.first * blockSize)) (live.erase a) := by
  have hbelow := hs.below a hlive
  unfold pmmFreeBlock
  rw [Nat.mul_div_cancel a.first (by decide), if_neg (by omega)]
  refine hs.drop hlive (hs.counted.release (by omega)) fun f _ => ?_
  rw [test_release]
  simp only [Bool.and_eq_true, Bool.not_eq_true', decide_eq_false_iff_not, Alloc.Covers, hone]
  refine and_congr_left' ?_
  omega

omit hkernel hs in
theorem freeBlocksFrom_spec (hbelow : frame + n ≤ totalBlocks) (hcounted : Counted s) :
    Counted (freeBlocksFrom n frame s) ∧ ∀ f, Bitmap.test (freeBlocksFrom n frame s).bitmap f =
        (!decide (frame ≤ f ∧ f < frame + n) && Bitmap.test s.bitmap f) := by
  induction n generalizing frame s with
  | zero =>
    refine ⟨hcounted, fun f => ?_⟩
    have hempty : ¬ (frame ≤ f ∧ f < frame + 0) := by omega
    rw [decide_eq_false hempty, Bool.not_false, Bool.true_and, freeBlocksFrom]
  | succ n ih =>
    rw [freeBlocksFrom, if_neg (by omega)]
    have hfirst : frame < totalBlocks := by omega
    have htail : frame + 1 + n ≤ totalBlocks := by omega
    obtain ⟨hrest, hbits⟩ := ih htail (hcounted.release hfirst)
    refine ⟨hrest, fun f => ?_⟩
    rw [hbits f, test_release, ← Bool.and_assoc, ← Bool.not_or, ← Bool.decide_or]
    congr 3
    rw [eq_iff_iff]
    omega

omit hkernel in
theorem pmmFreeBlocks_inv (hlive : a ∈ live) :
    Inv reserved (pmmFreeBlocks s (a.first * blockSize) a.count) (live.erase a) := by
  unfold pmmFreeBlocks
  rw [Nat.mul_div_cancel a.first (by decide)]
  obtain ⟨hcounted, hbits⟩ := freeBlocksFrom_spec (hs.below a hlive) hs.counted
  refine hs.drop hlive hcounted fun f _ => ?_
  rw [hbits f]
  simp only [Bool.and_eq_true, Bool.not_eq_true', decide_eq_false_iff_not, Alloc.Covers]

theorem pmmAllocBlocks_ne_zero (hp : (pmmAllocBlocks s count).1 ≠ 0) : Inv reserved (pmmAllocBlocks s count).2
        (⟨(pmmAllocBlocks s count).1 / blockSize, count⟩ :: live) ∧
        (pmmAllocBlocks s count).1 % blockSize = 0 := by
  constructor
  · have hinv := pmmAllocBlocks_inv hkernel hs count
    unfold grant at hinv
    rwa [if_neg hp] at hinv
  · unfold pmmAllocBlocks
    split
    · rfl
    · split
      · rfl
      · exact Nat.mul_mod_left _ _

theorem pmmAllocBlocks_one_eq_zero (hp : (pmmAllocBlocks s 1).1 = 0) :
    ∀ f, f < totalBlocks → Bitmap.test s.bitmap f = true := by
  have hcount := Bitmap.count_le s.bitmap totalBlocks
  have hused : s.usedBlocks = Bitmap.count s.bitmap totalBlocks := hs.counted
  unfold pmmAllocBlocks at hp
  split at hp
  · rename_i hfull
    intro f hf
    by_contra hclear
    rw [Bool.not_eq_true] at hclear
    have hset := Bitmap.count_set hf hclear
    have hle := Bitmap.count_le (Bitmap.set s.bitmap f) totalBlocks
    omega
  · cases hsearch : bitmapFirstFreeContiguous s.bitmap 1 with
    | none => exact bitmapFirstFree_none hsearch
    | some frame =>
      rw [hsearch] at hp
      obtain ⟨hpos, hbelow, hclear⟩ := bitmapFirstFreeContiguous_some hsearch
      have hlow : kernelPages ≤ frame := kernelPages_le_of_clear hkernel hs (by omega) (hclear 0 hpos)
      have hpages : kernelPages = 512 := by decide
      simp only [blockSize] at hp
      omega

omit hkernel in
theorem pmmFreeBlocks_perm {rest : List Alloc} (hperm : live.Perm (a :: rest)) :
    Inv reserved (pmmFreeBlocks s (a.first * blockSize) a.count) rest := by
  have hinv := pmmFreeBlocks_inv (hs.perm hperm) mem_cons_self
  rwa [erase_cons_head] at hinv

omit hs in
theorem Step.inv (hstep : Step (s, live) (s', live')) (hs : Inv reserved s live) : Inv reserved s' live' := by
  cases hstep with
  | allocBlock => exact pmmAllocBlock_inv hkernel hs
  | allocBlocks _ _ count => exact pmmAllocBlocks_inv hkernel hs count
  | freeBlock _ _ a hlive hone => exact pmmFreeBlock_inv hs hlive hone
  | freeBlocks _ _ a hlive => exact pmmFreeBlocks_inv hs hlive

omit hs in
theorem run_inv (hrun : Relation.ReflTransGen Step (s, live) (s', live')) (hs : Inv reserved s live) :
    Inv reserved s' live' := by
  generalize hstart : (s, live) = start at hrun
  generalize hend : (s', live') = finish at hrun
  induction hrun generalizing s' live' with
  | refl =>
    cases hstart
    cases hend
    exact hs
  | @tail mid last _ hstep ih =>
    cases hend
    exact Step.inv hkernel hstep (ih rfl)

end Operations

/-- The memory manager's invariant over any run after `pmm_init`. -/
theorem pmm_run_agrees {fuel : Nat} {info : MultibootInfo} {s₀ s : State} {live : List Alloc}
    (hinit : pmmInit fuel info = some s₀) (hrun : Relation.ReflTransGen Step (s₀, []) (s, live)) :
    s.usedBlocks = Bitmap.count s.bitmap totalBlocks ∧ live.Pairwise Alloc.Disjoint ∧
      (∀ a ∈ live, ∀ f, a.Covers f → 512 ≤ f ∧ f < totalBlocks) ∧
      ∀ f, f < totalBlocks → (Bitmap.test s.bitmap f = true ↔
        Bitmap.test s₀.bitmap f = true ∨ ∃ a ∈ live, a.Covers f) := by
  obtain ⟨hcounted, hkernel⟩ := pmmInit_counted hinit
  have hs := run_inv hkernel hrun (Inv.init hcounted)
  refine ⟨hs.counted, hs.apart, fun a ha f hf => ?_, hs.bits⟩
  have hlow : kernelPages ≤ a.first := kernelPages_le_of_live hkernel hs ha
  have hpages : kernelPages = 512 := by decide
  have hbelow := hs.below a ha
  exact ⟨by have := hf.1; omega, by have := hf.2; omega⟩

def bootState : State :=
  reserveKernel (freeAboveKernel { bitmap := fun _ => 0xFF, usedBlocks := totalBlocks })

theorem pmmInit_no_map : pmmInit 0 ⟨0, 0, 0, fun _ => ⟨0, 0, 0, 0⟩⟩ = some bootState := by
  simp [pmmInit, bootState]

theorem bootState_free (hlow : kernelPages ≤ f) (hf : f < totalBlocks) :
    Bitmap.test bootState.bitmap f = false := by
  have hframes : ∀ f ∈ List.range kernelPages, f < totalBlocks :=
    fun f hf => lt_of_lt_of_le (mem_range.mp hf) (by decide)
  have hcounted : Counted (freeAboveKernel { bitmap := fun _ => 0xFF, usedBlocks := totalBlocks }) :=
    foldl_release_counted counted_full fun f hf => by
      have hrange := List.mem_range'_1.mp hf
      omega
  have hbits := (reserveKernel_loop hcounted hframes).2 f
  have hfreed : f ∈ List.range' kernelPages (totalBlocks - kernelPages) := List.mem_range'_1.mpr (by omega)
  have hkernel : f ∉ List.range kernelPages := by
    rw [mem_range]
    omega
  have hclear : Bitmap.test (freeAboveKernel
      { bitmap := fun _ => 0xFF, usedBlocks := totalBlocks }).bitmap f = false := by
    unfold freeAboveKernel
    rw [test_foldl_release, decide_eq_true hfreed]
    rfl
  rw [← Bool.not_eq_true]
  unfold bootState reserveKernel
  rw [hbits, hclear]
  simp [hkernel]

theorem bootState_booted : Booted bootState := by
  obtain ⟨hcounted, hkernel⟩ := pmmInit_counted pmmInit_no_map
  exact ⟨hcounted, hkernel⟩

theorem bootState_freeBelow (n : Nat) (hn : kernelPages + n ≤ totalBlocks) :
    freeBelow bootState (kernelPages + n) = n := by
  induction n with
  | zero =>
    unfold freeBelow
    rw [Nat.add_zero, Nat.count_iff_forall_not]
    intro f hf
    simp [bootState_booted.kernel f hf]
  | succ n ih =>
    rw [← Nat.add_assoc, freeBelow_succ, ih (by omega), if_pos (bootState_free (by omega) (by omega))]

/-- A boot without a memory map, then one allocation. -/
theorem pmm_run_agrees_no_map : (pmmAllocBlock bootState).2.usedBlocks =
      Bitmap.count (pmmAllocBlock bootState).2.bitmap totalBlocks :=
  (pmm_run_agrees pmmInit_no_map
    (Relation.ReflTransGen.single (Step.allocBlock bootState []))).1

end JexOs.Pmm
