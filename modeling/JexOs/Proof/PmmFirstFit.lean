import JexOs.Proof.Pmm
import JexOs.Lib.FirstFit

/-!
# The searches of the physical memory manager are first fit

Neither search passes over a position where the frames fit, so both are the naive search. A frame that ends the
look-ahead is inside every run that would begin between it and the frame it started from.
-/

namespace JexOs.Pmm

open ByteMem FirstFit

variable {bitmap : Mem} {count n i j freeCount fuel : Nat}

theorem lookAhead_blocked (hlook : lookAhead bitmap count n i freeCount = .blocked j)
    (hcount : freeCount < count) :
    i ≤ j ∧ j + freeCount < i + count ∧ Bitmap.test bitmap j = true := by
  induction n generalizing i freeCount with
  | zero => cases hlook
  | succ n ih =>
    rw [lookAhead] at hlook
    split at hlook
    · rename_i htaken
      cases hlook
      exact ⟨le_rfl, by omega, htaken⟩
    · split at hlook
      · cases hlook
      · obtain ⟨hle, hlt, htaken⟩ := ih hlook (by omega)
        exact ⟨by omega, by omega, htaken⟩

theorem lookAhead_exhausted (hlook : lookAhead bitmap count n i freeCount = .exhausted)
    (hcount : freeCount < count) : freeCount + n < count := by
  induction n generalizing i freeCount with
  | zero => exact hcount
  | succ n ih =>
    rw [lookAhead] at hlook
    split at hlook
    · cases hlook
    · split at hlook
      · cases hlook
      · have hshort := ih hlook (by omega)
        omega

theorem search_blocked (hpos : 0 < count) (hlook : lookAhead bitmap count (totalBlocks - i) i 0 = .blocked j) :
    search (Bitmap.test bitmap) i totalBlocks count =
      search (Bitmap.test bitmap) (j + 1) totalBlocks count := by
  obtain ⟨hle, hlt, htaken⟩ := lookAhead_blocked hlook hpos
  refine search_skip (by omega) fun f hf hbelow => ?_
  exact not_fits_of_taken (by omega) (by omega) htaken

theorem firstFreeFrom_eq (hpos : 0 < count) (hfuel : totalBlocks ≤ i + fuel) :
    firstFreeFrom bitmap count fuel i = search (Bitmap.test bitmap) i totalBlocks count := by
  induction fuel generalizing i with
  | zero =>
    refine (search_eq_none.mpr fun f hf => ?_).symm
    exact not_fits_of_short (by omega)
  | succ fuel ih =>
    rw [firstFreeFrom]
    split
    · split
      · rename_i htaken
        rw [ih (by omega)]
        refine (search_skip (Nat.le_succ i) fun f hf hbelow => ?_).symm
        exact not_fits_of_taken (by omega) (by omega) htaken
      · split
        · rename_i hlook
          obtain ⟨-, hle, hfree⟩ := lookAhead_found hlook
          exact (search_hit ⟨by omega, hfree⟩).symm
        · rename_i j hlook
          have hle := (lookAhead_blocked hlook hpos).1
          rw [ih (by omega), search_blocked hpos hlook]
        · rename_i hlook
          have hshort := lookAhead_exhausted hlook hpos
          rw [ih (by omega)]
          refine (search_skip (Nat.le_succ i) fun f hf _ => ?_).symm
          exact not_fits_of_short (by omega)
    · refine (search_eq_none.mpr fun f hf => ?_).symm
      exact not_fits_of_short (by omega)

theorem bitmapFirstFree_eq
    (bitmap : Mem) : bitmapFirstFree bitmap = search (Bitmap.test bitmap) 0 totalBlocks 1 := by
  cases hsearch : bitmapFirstFree bitmap with
  | none =>
    have hfull := bitmapFirstFree_none hsearch
    refine (search_eq_none.mpr fun f _ hfits => ?_).symm
    have hfree := hfits.one
    rw [hfull f hfits.1] at hfree
    cases hfree
  | some frame =>
    obtain ⟨hframe, hclear, hbelow⟩ := bitmapFirstFree_some hsearch
    refine (search_eq_some.mpr ⟨Nat.zero_le _, fits_one hframe hclear, fun g _ hg => ?_⟩).symm
    exact not_fits_of_taken le_rfl (Nat.lt_succ_self g) (hbelow g hg)

theorem bitmapFirstFreeContiguous_eq (hpos : 0 < count) : bitmapFirstFreeContiguous bitmap count =
      search (Bitmap.test bitmap) 0 totalBlocks count := by
  unfold bitmapFirstFreeContiguous
  rw [if_neg (by omega)]
  split
  · rename_i hone
    rw [hone, bitmapFirstFree_eq]
  · exact firstFreeFrom_eq hpos (by omega)

variable {s : State}

theorem used_add_le (hs : Counted s) {f : Nat} (hfits : Fits (Bitmap.test s.bitmap) totalBlocks count f) :
    s.usedBlocks + count ≤ totalBlocks := by
  have hmarked := count_foldl_set hfits.1 hfits.2
  have hle := Bitmap.count_le ((List.range count).foldl (fun b i => Bitmap.set b (f + i)) s.bitmap) totalBlocks
  have hcounted : s.usedBlocks = Bitmap.count s.bitmap totalBlocks := hs
  omega

theorem pmmAllocBlocks_eq (hs : Counted s) (hpos : 0 < count) : pmmAllocBlocks s count =
      match search (Bitmap.test s.bitmap) 0 totalBlocks count with
      | none => (0, s)
      | some frame =>
        (frame * blockSize,
          { bitmap := (List.range count).foldl (fun b i => Bitmap.set b (frame + i)) s.bitmap
            usedBlocks := s.usedBlocks + count }) := by
  unfold pmmAllocBlocks
  rw [bitmapFirstFreeContiguous_eq hpos]
  cases hsearch : search (Bitmap.test s.bitmap) 0 totalBlocks count with
  | none => exact ite_self _
  | some frame =>
    have hroom := used_add_le hs (search_eq_some.mp hsearch).fits
    rw [if_neg (by omega)]

theorem pmmAllocBlock_eq (hs : Counted s) : pmmAllocBlock s = pmmAllocBlocks s 1 := by
  rw [pmmAllocBlocks_eq hs Nat.one_pos]
  unfold pmmAllocBlock
  rw [bitmapFirstFree_eq]
  cases hsearch : search (Bitmap.test s.bitmap) 0 totalBlocks 1 with
  | none => exact ite_self _
  | some frame =>
    have hroom := used_add_le hs (search_eq_some.mp hsearch).fits
    rw [if_neg (by omega)]
    rfl

/-- The lowest run of free frames is marked and returned, and a request that no run meets changes nothing. -/
structure AllocatesFirstFit (s : State) (count : Nat) : Prop where
  succeeds : (pmmAllocBlocks s count).1 ≠ 0 ↔ ∃ f, Fits (Bitmap.test s.bitmap) totalBlocks count f
  lowest : ∀ f, Lowest (Bitmap.test s.bitmap) 0 totalBlocks count f →
    (pmmAllocBlocks s count).1 = f * blockSize ∧
      (pmmAllocBlocks s count).2.usedBlocks = s.usedBlocks + count ∧
      ∀ g, Bitmap.test (pmmAllocBlocks s count).2.bitmap g =
        (decide (f ≤ g ∧ g < f + count) || Bitmap.test s.bitmap g)
  fails : (pmmAllocBlocks s count).1 = 0 → (pmmAllocBlocks s count).2 = s

/-- **First fit.** Whatever the bitmap, the two allocators are the naive first-fit search for a run of
frames. -/
theorem pmmAllocBlocks_firstFit (hcounted : s.usedBlocks = Bitmap.count s.bitmap totalBlocks)
    (hzero : Bitmap.test s.bitmap 0 = true) (hpos : 1 ≤ count) :
    AllocatesFirstFit s count ∧ pmmAllocBlock s = pmmAllocBlocks s 1 := by
  refine ⟨?_, pmmAllocBlock_eq hcounted⟩
  have heq := pmmAllocBlocks_eq hcounted hpos
  cases hsearch : search (Bitmap.test s.bitmap) 0 totalBlocks count with
  | none =>
    rw [hsearch] at heq
    have hnone := search_eq_none.mp hsearch
    refine ⟨?_, fun f hf => absurd hf.fits (hnone f hf.ge), fun _ => by rw [heq]⟩
    rw [heq]
    exact ⟨fun hne => absurd rfl hne, fun ⟨f, hf⟩ => absurd hf (hnone f (Nat.zero_le f))⟩
  | some frame =>
    rw [hsearch] at heq
    have hlowest := search_eq_some.mp hsearch
    -- frame 0 is taken, so the address of a run is not the null pointer
    have hne : frame * blockSize ≠ 0 := by
      have hfree := hlowest.fits.2 0 hpos
      rintro hnull
      obtain rfl : frame = 0 := (Nat.mul_eq_zero.mp hnull).resolve_right (by decide)
      rw [hzero] at hfree
      cases hfree
    refine ⟨?_, fun f hf => ?_, fun hnull => ?_⟩
    · rw [heq]
      exact ⟨fun _ => ⟨frame, hlowest.fits⟩, fun _ => hne⟩
    · obtain rfl := hf.unique hlowest
      rw [heq]
      exact ⟨rfl, rfl, test_foldl_set s.bitmap f count⟩
    · rw [heq] at hnull
      exact absurd hnull hne

/-- After a boot without a memory map, three frames. -/
theorem pmmAllocBlocks_firstFit_boot :
    AllocatesFirstFit bootState 3 ∧ pmmAllocBlock bootState = pmmAllocBlocks bootState 1 :=
  pmmAllocBlocks_firstFit bootState_booted.counted (bootState_booted.kernel 0 (by decide))
    (by decide)

end JexOs.Pmm
