import Mathlib.Data.Nat.ModEq

/-!
# Circular buffers

A buffer of `size` cells that goes on at the start when the end is reached. A queue of items of one cell each has
an index for either end, and leaves a cell empty.
-/

namespace Circular

open List Function

variable {α : Type*} {size : Nat} {ring item item' : Nat → α} {p pos n m d : Nat}

def put (size : Nat) (ring : Nat → α) (pos n : Nat) (item : Nat → α) : Nat → α := fun i =>
  let k := (i + size - pos) % size
  if i < size ∧ k < n then item k else ring i

/-- The first `n` cells of an item are stored from a position on. -/
def Stored (size : Nat) (ring : Nat → α) (p n : Nat) (item : Nat → α) : Prop :=
  ∀ k < n, ring ((p + k) % size) = item k

theorem stored_mod : Stored size ring (p % size) n item ↔ Stored size ring p n item := by
  unfold Stored
  simp only [Nat.mod_add_mod]

theorem distance_eq (hpos : pos < size) (hm : m < size) : ((pos + m) % size + size - pos) % size = m := by
  by_cases hwrap : pos + m < size
  · rw [Nat.mod_eq_of_lt hwrap, show pos + m + size - pos = m + size by omega, Nat.add_mod_right,
      Nat.mod_eq_of_lt hm]
  · have hcell : (pos + m) % size = pos + m - size := by
      rw [Nat.mod_eq_sub_mod (not_lt.mp hwrap), Nat.mod_eq_of_lt (by omega)]
    rw [hcell, show pos + m - size + size - pos = m by omega, Nat.mod_eq_of_lt hm]

theorem put_apply (hpos : pos < size) (hm : m < size) : put size ring pos n item ((pos + m) % size) =
      if m < n then item m else ring ((pos + m) % size) := by
  unfold put
  rw [distance_eq hpos hm]
  exact if_congr ⟨And.right, fun h => ⟨Nat.mod_lt _ (by omega), h⟩⟩ rfl rfl

theorem stored_put (hpos : pos < size)
    (hn : n ≤ size) : Stored size (put size ring pos n item) pos n item := by
  intro k hk
  rw [put_apply hpos (by omega), if_pos hk]

theorem Stored.put (h : Stored size ring p n item) (hd : n ≤ d) (hfit : d + m ≤ size)
    (hpos : pos = (p + d) % size) : Stored size (put size ring pos m item') p n item := by
  intro k hk
  have hsize : 0 < size := by omega
  have hcell : (p + k) % size = (pos + (size - d + k)) % size := by
    rw [hpos, Nat.mod_add_mod, show p + d + (size - d + k) = p + k + size by omega, Nat.add_mod_right]
  rw [hcell, put_apply (hpos ▸ Nat.mod_lt _ hsize) (by omega), if_neg (by omega), ← hcell]
  exact h k hk

variable {head tail : Nat} {items : List α} {x : α}

/-- The items stand one a cell from `tail` on, with a cell left in front of it. -/
structure Queued (size : Nat) (ring : Nat → α) (head tail : Nat) (items : List α) : Prop where
  tail_lt : tail < size
  room : items.length < size
  head_eq : head = (tail + items.length) % size
  cell : ∀ k x, items[k]? = some x → ring ((tail + k) % size) = x

theorem queued_nil (htail : tail < size) : Queued size ring tail tail [] where
  tail_lt := htail
  room := Nat.zero_lt_of_lt htail
  head_eq := (Nat.mod_eq_of_lt htail).symm
  cell := fun _ _ hk => nomatch hk

section

variable (h : Queued size ring head tail items)

include h

theorem Queued.distance : (head + size - tail) % size = items.length := by
  rw [h.head_eq, distance_eq h.tail_lt h.room]

theorem Queued.empty_iff : head = tail ↔ items = [] := by
  constructor
  · rintro rfl
    have hnone := h.distance
    rw [Nat.add_sub_cancel_left, Nat.mod_self] at hnone
    exact eq_nil_of_length_eq_zero hnone.symm
  · rintro rfl
    exact h.head_eq.trans (Nat.mod_eq_of_lt h.tail_lt)

theorem Queued.full_iff : (head + 1) % size = tail ↔ items.length + 1 = size := by
  have hnext : (head + 1) % size = (tail + (items.length + 1)) % size := by
    rw [h.head_eq, Nat.mod_add_mod, Nat.add_assoc]
  rw [hnext]
  constructor
  · intro hfull
    by_contra hroom
    have hlt : items.length + 1 < size := Nat.lt_of_le_of_ne h.room hroom
    have hdistance := distance_eq h.tail_lt hlt
    rw [hfull, Nat.add_sub_cancel_left, Nat.mod_self] at hdistance
    exact Nat.succ_ne_zero _ hdistance.symm
  · intro hfull
    rw [hfull, Nat.add_mod_right, Nat.mod_eq_of_lt h.tail_lt]

theorem Queued.push (hroom : items.length + 1 < size) :
    Queued size (Function.update ring head x) ((head + 1) % size) tail (items ++ [x]) where
  tail_lt := h.tail_lt
  room := by
    rw [length_append]
    exact hroom
  head_eq := by
    rw [h.head_eq, Nat.mod_add_mod, length_append, length_singleton, Nat.add_assoc]
  cell := by
    intro k y hk
    by_cases hlast : k < items.length
    · rw [getElem?_append_left hlast] at hk
      have hne : (tail + k) % size ≠ head := by
        intro heq
        have hhere := distance_eq h.tail_lt (hlast.trans h.room)
        rw [heq, h.distance] at hhere
        exact Nat.ne_of_gt hlast hhere
      rw [update_of_ne hne]
      exact h.cell k y hk
    · obtain ⟨hlt, -⟩ := List.getElem?_eq_some_iff.mp hk
      rw [length_append, length_singleton] at hlt
      obtain rfl : k = items.length := by omega
      rw [getElem?_concat_length] at hk
      rw [← h.head_eq, update_self]
      exact Option.some.inj hk

end

theorem Queued.front (h : Queued size ring head tail (x :: items)) : ring tail = x := by
  have hfirst := h.cell 0 x rfl
  rwa [Nat.add_zero, Nat.mod_eq_of_lt h.tail_lt] at hfirst

theorem Queued.pop (h : Queued size ring head tail (x :: items)) :
    Queued size ring head ((tail + 1) % size) items where
  tail_lt := Nat.mod_lt _ (Nat.zero_lt_of_lt h.tail_lt)
  room := Nat.lt_of_succ_lt h.room
  head_eq := by
    rw [h.head_eq, Nat.mod_add_mod, length_cons, Nat.add_assoc, Nat.add_comm 1]
  cell := by
    intro k y hk
    have hnext := h.cell (k + 1) y hk
    rwa [Nat.mod_add_mod, Nat.add_assoc, Nat.add_comm 1]

end Circular
