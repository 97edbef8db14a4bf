import Mathlib.Data.Nat.Bitwise

/-!
# Byte-addressed memory

A memory is a function from addresses to bytes. Everything a program stores is a `blit`: the bytes of a source
copied over one address range. Words are little-endian.
-/

namespace ByteMem

abbrev Mem := Nat → UInt8

def blit (m : Mem) (a n : Nat) (src : Mem) : Mem :=
  fun k => if a ≤ k ∧ k < a + n then src (k - a) else m k

variable {n a k v b : Nat} {m src m' : Mem}

theorem blit_of_mem (hlow : a ≤ k) (hhigh : k < a + n) : blit m a n src k = src (k - a) := by
  simp [blit, hlow, hhigh]

theorem blit_of_lt (hlt : k < a) : blit m a n src k = m k := by
  simp only [blit]
  rw [if_neg (by omega)]

theorem blit_of_ge (hge : a + n ≤ k) : blit m a n src k = m k := by
  simp only [blit]
  rw [if_neg (by omega)]

theorem blit_add (hk : k < n) : blit m a n src (a + k) = src k := by
  rw [blit_of_mem (by omega) (by omega), Nat.add_sub_cancel_left]

@[simp]
theorem blit_zero (m : Mem) (a : Nat) (src : Mem) : blit m a 0 src = m := by
  funext k
  simp only [blit]
  rw [if_neg (by omega)]

def byteOf (v k : Nat) : UInt8 := UInt8.ofNat (v / 256 ^ k)

def load16 (m : Mem) (a : Nat) : Nat := (m a).toNat + 256 * (m (a + 1)).toNat

def load32 (m : Mem) (a : Nat) : Nat :=
  (m a).toNat + 256 * (m (a + 1)).toNat + 65536 * (m (a + 2)).toNat
    + 16777216 * (m (a + 3)).toNat

def store16 (m : Mem) (a v : Nat) : Mem := blit m a 2 (byteOf v)

def store32 (m : Mem) (a v : Nat) : Mem := blit m a 4 (byteOf v)

theorem load16_lt (m : Mem) (a : Nat) : load16 m a < 65536 := by
  have h0 := (m a).toNat_lt
  have h1 := (m (a + 1)).toNat_lt
  unfold load16
  omega

theorem load32_lt (m : Mem) (a : Nat) : load32 m a < 4294967296 := by
  have h0 := (m a).toNat_lt
  have h1 := (m (a + 1)).toNat_lt
  have h2 := (m (a + 2)).toNat_lt
  have h3 := (m (a + 3)).toNat_lt
  unfold load32
  omega

theorem load16_congr (h : ∀ k, a ≤ k → k < a + 2 → m' k = m k) : load16 m' a = load16 m a := by
  unfold load16
  rw [h a (by omega) (by omega), h (a + 1) (by omega) (by omega)]

theorem load32_congr (h : ∀ k, a ≤ k → k < a + 4 → m' k = m k) : load32 m' a = load32 m a := by
  unfold load32
  rw [h a (by omega) (by omega), h (a + 1) (by omega) (by omega),
    h (a + 2) (by omega) (by omega), h (a + 3) (by omega) (by omega)]

@[simp]
theorem toNat_byteOf (v k : Nat) : (byteOf v k).toNat = v / 256 ^ k % 256 := by
  simp [byteOf]

theorem load16_byteOf (hv : v < 65536) (h : ∀ k, k < 2 → m (a + k) = byteOf v k) : load16 m a = v := by
  have h0 := h 0 (by omega)
  have h1 := h 1 (by omega)
  unfold load16
  rw [Nat.add_zero] at h0
  rw [h0, h1, toNat_byteOf, toNat_byteOf]
  omega

theorem load32_byteOf (hv : v < 4294967296) (h : ∀ k, k < 4 → m (a + k) = byteOf v k) : load32 m a = v := by
  have h0 := h 0 (by omega)
  have h1 := h 1 (by omega)
  have h2 := h 2 (by omega)
  have h3 := h 3 (by omega)
  unfold load32
  rw [Nat.add_zero] at h0
  rw [h0, h1, h2, h3, toNat_byteOf, toNat_byteOf, toNat_byteOf, toNat_byteOf]
  omega

theorem load16_store16 (hv : v < 65536) : load16 (store16 m a v) a = v :=
  load16_byteOf hv fun _ hk => blit_add hk

theorem load32_store32 (hv : v < 4294967296) : load32 (store32 m a v) a = v :=
  load32_byteOf hv fun _ hk => blit_add hk

theorem load16_blit_of_disjoint (h : a + n ≤ b ∨ b + 2 ≤ a) : load16 (blit m a n src) b = load16 m b := by
  refine load16_congr fun k hlow hhigh => ?_
  rcases h with h | h
  · exact blit_of_ge (by omega)
  · exact blit_of_lt (by omega)

theorem load32_blit_of_disjoint (h : a + n ≤ b ∨ b + 4 ≤ a) : load32 (blit m a n src) b = load32 m b := by
  refine load32_congr fun k hlow hhigh => ?_
  rcases h with h | h
  · exact blit_of_ge (by omega)
  · exact blit_of_lt (by omega)

theorem load32_store32_of_disjoint (h : a + 4 ≤ b ∨ b + 4 ≤ a) : load32 (store32 m a v) b = load32 m b :=
  load32_blit_of_disjoint h

end ByteMem
