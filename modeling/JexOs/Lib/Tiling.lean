import Mathlib.Data.List.Chain

/-!
# Blocks that tile a region

Blocks lie one behind another, each a header and what it can hold. They are split, joined and added at the end.
-/

namespace Tiling

open List

structure Block where
  addr : Nat
  size : Nat
  free : Bool
deriving DecidableEq, Repr

def Block.Contains (header : Nat) (b : Block) (a : Nat) : Prop :=
  b.addr + header ≤ a ∧ a < b.addr + header + b.size

/-- The blocks lie between two addresses without gap or overlap. -/
def Tiles (header : Nat) : Nat → List Block → Nat → Prop
  | p, [], q => p = q
  | p, b :: rest, q => b.addr = p ∧ Tiles header (p + header + b.size) rest q

def Coalesced (blocks : List Block) : Prop :=
  blocks.IsChain fun a b => a.free = true → b.free = false

variable {header p q n : Nat} {a b c : Block} {blocks before after : List Block}

theorem tiles_append : Tiles header p (before ++ after) q ↔
    ∃ m, Tiles header p before m ∧ Tiles header m after q := by
  induction before generalizing p with
  | nil =>
    refine ⟨fun h => ⟨p, rfl, h⟩, ?_⟩
    rintro ⟨m, rfl, h⟩
    exact h
  | cons b rest ih =>
    constructor
    · rintro ⟨haddr, hrest⟩
      obtain ⟨m, hbefore, hafter⟩ := ih.mp hrest
      exact ⟨m, ⟨haddr, hbefore⟩, hafter⟩
    · rintro ⟨m, ⟨haddr, hbefore⟩, hafter⟩
      exact ⟨haddr, ih.mpr ⟨m, hbefore, hafter⟩⟩

section

variable (h : Tiles header p blocks q)

include h

theorem Tiles.le : p + blocks.length * header ≤ q := by
  induction blocks generalizing p with
  | nil =>
    rw [length_nil, Nat.zero_mul]
    exact h.le
  | cons b rest ih =>
    have hrest := ih h.2
    rw [length_cons, Nat.add_mul, Nat.one_mul]
    omega

theorem Tiles.bounds (hb : b ∈ blocks) : p ≤ b.addr ∧ b.addr + header + b.size ≤ q := by
  obtain ⟨before, after, rfl⟩ := append_of_mem hb
  obtain ⟨m, hbefore, rfl, hafter⟩ := tiles_append.mp h
  exact ⟨(Nat.le_add_right _ _).trans hbefore.le, (Nat.le_add_right _ _).trans hafter.le⟩

theorem Tiles.apart : blocks.Pairwise fun x y => x.addr + header + x.size ≤ y.addr := by
  induction blocks generalizing p with
  | nil => exact List.Pairwise.nil
  | cons b rest ih =>
    obtain ⟨rfl, hrest⟩ := h
    exact List.Pairwise.cons (fun y hy => (hrest.bounds hy).1) (ih hrest)

omit h in
theorem Tiles.around (h : Tiles header p (before ++ b :: after) q) :
    (∀ x ∈ before, x.addr + header + x.size ≤ b.addr) ∧ ∀ x ∈ after, b.addr + header + b.size ≤ x.addr := by
  have hapart := pairwise_append.mp h.apart
  exact ⟨fun x hx => hapart.2.2 x hx b mem_cons_self, fun _ hx =>
    rel_of_pairwise_cons hapart.2.1 hx⟩

theorem Tiles.eq_of_addr (hheader : 0 < header) (ha : a ∈ blocks)
    (hb : b ∈ blocks) (haddr : a.addr = b.addr) : a = b := by
  obtain ⟨before, after, rfl⟩ := append_of_mem hb
  obtain ⟨hbefore, hafter⟩ := h.around
  rcases mem_append.mp ha with ha | ha
  · have hend := hbefore a ha
    omega
  · rcases mem_cons.mp ha with rfl | ha
    · rfl
    · have hend := hafter a ha
      omega

end

theorem Tiles.split (h : Tiles header p (before ++ b :: after) q) (hn : n + header ≤ b.size)
    (ha : a.addr = b.addr ∧ a.size = n) (hc : c.addr = b.addr + header + n ∧ c.size = b.size - n - header) :
    Tiles header p (before ++ a :: c :: after) q := by
  obtain ⟨m, hbefore, haddr, hafter⟩ := tiles_append.mp h
  refine tiles_append.mpr ⟨m, hbefore, ha.1.trans haddr, ?_, ?_⟩
  · rw [hc.1, haddr, ha.2]
  · rwa [ha.2, hc.2, show m + header + n + header + (b.size - n - header) = m + header + b.size by omega]

theorem Tiles.merge (h : Tiles header p (before ++ a :: b :: after) q) (hc : c.addr = a.addr)
    (hsize : c.size = a.size + b.size + header) : Tiles header p (before ++ c :: after) q := by
  obtain ⟨m, hbefore, haddr, hnext, hafter⟩ := tiles_append.mp h
  refine tiles_append.mpr ⟨m, hbefore, hc.trans haddr, ?_⟩
  rwa [hsize, show m + header + (a.size + b.size + header) = m + header + a.size + header + b.size by
    omega]

theorem Tiles.relabel (h : Tiles header p (before ++ a :: after) q) (hc : c.addr = a.addr)
    (hsize : c.size = a.size) : Tiles header p (before ++ c :: after) q := by
  obtain ⟨m, hbefore, haddr, hafter⟩ := tiles_append.mp h
  refine tiles_append.mpr ⟨m, hbefore, hc.trans haddr, ?_⟩
  rwa [hsize]

theorem Tiles.grow (h : Tiles header p blocks q) (hb : b.addr = q) :
    Tiles header p (blocks ++ [b]) (q + header + b.size) :=
  tiles_append.mpr ⟨q, h, hb, rfl⟩

theorem Coalesced.around (h : Coalesced (before ++ b :: after)) : Coalesced before ∧ Coalesced after ∧
      (b.free = true → (∀ x ∈ before.getLast?, x.free = false) ∧ ∀ y ∈ after.head?, y.free = false) := by
  unfold Coalesced at h
  rw [isChain_append, isChain_cons] at h
  obtain ⟨hbefore, ⟨hnext, hafter⟩, hlink⟩ := h
  refine ⟨hbefore, hafter, fun hfree => ⟨fun x hx => ?_, fun y hy => hnext y hy hfree⟩⟩
  by_contra hused
  have hused' := hlink x hx b rfl (Bool.of_not_eq_false hused)
  exact absurd hfree (by rw [hused']; decide)

theorem coalesced_used (hbefore : Coalesced before) (hafter : Coalesced after)
    (hc : c.free = false) : Coalesced (before ++ c :: after) := by
  unfold Coalesced
  rw [isChain_append, isChain_cons]
  refine ⟨hbefore, ⟨fun y _ hfree => absurd hfree (by rw [hc]; decide), hafter⟩, ?_⟩
  intro x _ y hy _
  obtain rfl := Option.some.inj hy
  exact hc

theorem coalesced_between (hbefore : Coalesced before) (hafter : Coalesced after)
    (hleft : ∀ x ∈ before.getLast?, x.free = false) (hright : ∀ y ∈ after.head?, y.free = false) :
    Coalesced (before ++ c :: after) := by
  unfold Coalesced
  rw [isChain_append, isChain_cons]
  refine ⟨hbefore, ⟨fun y hy _ => hright y hy, hafter⟩, fun x hx y _ hfree => ?_⟩
  exact absurd hfree (by rw [hleft x hx]; decide)

end Tiling
