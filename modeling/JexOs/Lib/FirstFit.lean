import Mathlib.Data.Option.Basic
import Mathlib.Order.Nat

/-!
# First fit

A request for `n` neighbouring cells is met by the lowest run of `n` cells that are all free. A search that skips
positions finds the same run as long as no run begins at a position it skips.
-/

namespace FirstFit

def Fits (taken : Nat → Bool) (stop n f : Nat) : Prop :=
  f + n ≤ stop ∧ ∀ i, i < n → taken (f + i) = false

instance (taken : Nat → Bool) (stop n f : Nat) : Decidable (Fits taken stop n f) :=
  inferInstanceAs (Decidable (f + n ≤ stop ∧ ∀ i, i < n → taken (f + i) = false))

/-- The lowest run of `n` free cells that begins at `start` or above. -/
structure Lowest (taken : Nat → Bool) (start stop n f : Nat) : Prop where
  ge : start ≤ f
  fits : Fits taken stop n f
  least : ∀ g, start ≤ g → g < f → ¬Fits taken stop n g

/-- The naive search: the first position from `start` on where the cells fit. -/
def search (taken : Nat → Bool) (start stop n : Nat) : Option Nat :=
  (List.range' start (stop + 1 - start)).find? fun f => decide (Fits taken stop n f)

variable {taken : Nat → Bool} {start stop n f g j : Nat}

theorem Fits.one (h : Fits taken stop 1 f) : taken f = false := h.2 0 Nat.one_pos

theorem fits_one (hstop : f < stop) (hfree : taken f = false) : Fits taken stop 1 f := by
  refine ⟨hstop, fun i hi => ?_⟩
  obtain rfl : i = 0 := by omega
  exact hfree

theorem not_fits_of_taken (hf : f ≤ j) (hj : j < f + n) (htaken : taken j = true) : ¬Fits taken stop n f := by
  intro h
  have hfree := h.2 (j - f) (by omega)
  rw [Nat.add_sub_cancel' hf, htaken] at hfree
  cases hfree

theorem not_fits_of_short (h : stop < f + n) : ¬Fits taken stop n f := fun hfits =>
  absurd hfits.1 (Nat.not_le_of_lt h)

theorem Lowest.unique (hf : Lowest taken start stop n f) (hg : Lowest taken start stop n g) : f = g := by
  refine Nat.le_antisymm (Nat.le_of_not_lt fun hlt => ?_) (Nat.le_of_not_lt fun hlt => ?_)
  · exact hf.least g hg.ge hlt hg.fits
  · exact hg.least f hf.ge hlt hf.fits

theorem search_eq_some : search taken start stop n = some f ↔ Lowest taken start stop n f := by
  unfold search
  rw [List.find?_range'_eq_some]
  simp only [decide_eq_true_eq, Bool.not_eq_true', decide_eq_false_iff_not, List.mem_range'_1]
  constructor
  · rintro ⟨hfits, ⟨hge, -⟩, hleast⟩
    exact ⟨hge, hfits, hleast⟩
  · intro h
    have hinside := h.fits.1
    have hge := h.ge
    exact ⟨h.fits, ⟨hge, by omega⟩, h.least⟩

theorem search_eq_none : search taken start stop n = none ↔ ∀ f, start ≤ f → ¬Fits taken stop n f := by
  unfold search
  rw [List.find?_eq_none]
  simp only [decide_eq_true_eq, List.mem_range'_1]
  refine ⟨fun h f hf hfits => h f ⟨hf, ?_⟩ hfits, fun h f hf => h f hf.1⟩
  have hinside := hfits.1
  omega

theorem search_hit (h : Fits taken stop n start) : search taken start stop n = some start :=
  search_eq_some.mpr ⟨le_rfl, h, fun _ hge hlt => absurd hlt (Nat.not_lt_of_le hge)⟩

theorem search_skip (hj : start ≤ j) (h : ∀ f, start ≤ f → f < j → ¬Fits taken stop n f) :
    search taken start stop n = search taken j stop n := by
  ext f
  rw [search_eq_some, search_eq_some]
  constructor
  · intro hf
    refine ⟨Nat.le_of_not_lt fun hlt => h f hf.ge hlt hf.fits, hf.fits, fun g hg => ?_⟩
    exact hf.least g (hj.trans hg)
  · intro hf
    refine ⟨hj.trans hf.ge, hf.fits, fun g hg hlt => ?_⟩
    rcases lt_or_ge g j with hbelow | habove
    · exact h g hg hbelow
    · exact hf.least g habove hlt

end FirstFit
