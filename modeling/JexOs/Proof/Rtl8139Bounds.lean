import JexOs.Rtl8139

/-!
# The bounds of the receive loop

What one turn reads and copies, whatever the ring holds.
-/

namespace JexOs.Rtl8139

open ByteMem List

def Aligned (offset : Nat) : Prop := offset % 4 = 0 ∧ offset < rxBufSize

instance (offset : Nat) : Decidable (Aligned offset) := inferInstanceAs (Decidable (_ ∧ _))

/-- A turn reads inside the ring, copies no more than the array holds, passes on what the ring holds around its end,
and leaves the offset of a header. -/
structure Bounded (ring : Mem) (offset : Nat) : Prop where
  reads : ∀ read ∈ ringReads ring offset, read.1 + read.2 ≤ rxBufSize
  copies : copied ring offset ≤ frameCopySize
  passes : isPacket ring offset = true → (frameAt ring offset).length = rxLen ring offset ∧
    ∀ k < rxLen ring offset, (frameAt ring offset)[k]? = some (ring ((offset + 4 + k) % rxBufSize))
  leaves : Aligned (nextOffset ring offset)

section Turn

variable {ring : Mem} {offset : Nat}

theorem isPacket_iff : isPacket ring offset = true ↔
    rxStatus ring offset % 2 = 1 ∧ rxLen ring offset ≤ rxBufSize ∧ 4 ≤ rxLen ring offset := by
  unfold isPacket
  rw [Bool.and_eq_true, Bool.and_eq_true, beq_iff_eq, decide_eq_true_iff, decide_eq_true_iff, and_assoc]

theorem wraps_iff : wraps ring offset = true ↔ rxBufSize < offset + 4 + rxLen ring offset :=
  decide_eq_true_iff

variable (h : Aligned offset)

include h

theorem reads_inside : ∀ read ∈ ringReads ring offset, read.1 + read.2 ≤ rxBufSize := by
  obtain ⟨haligned, hlt⟩ := h
  have hsize : rxBufSize = 32768 := rfl
  intro read hread
  rcases mem_cons.mp hread with rfl | hread
  · omega
  · split at hread
    · rename_i hpacket
      obtain ⟨-, hmost, -⟩ := isPacket_iff.mp hpacket
      split at hread
      · rename_i hwraps
        rcases mem_cons.mp hread with rfl | hread
        · omega
        · rw [mem_singleton.mp hread]
          omega
      · rename_i hwhole
        have hinside := mt wraps_iff.mpr hwhole
        rw [mem_singleton.mp hread]
        omega
    · cases hread

omit h in
theorem copied_eq : copied ring offset =
      if isPacket ring offset = true ∧ wraps ring offset = true then rxLen ring offset else 0 := by
  unfold copied
  by_cases hcopy : isPacket ring offset = true ∧ wraps ring offset = true
  · have hover := wraps_iff.mp hcopy.2
    rw [if_pos (Bool.and_eq_true_iff.mpr hcopy), if_pos hcopy]
    dsimp only
    omega
  · rw [if_neg (mt Bool.and_eq_true_iff.mp hcopy), if_neg hcopy]

omit h in
theorem copied_le_iff : copied ring offset ≤ frameCopySize ↔
      (isPacket ring offset = true → wraps ring offset = true → rxLen ring offset ≤ frameCopySize) := by
  rw [copied_eq]
  by_cases hcopy : isPacket ring offset = true ∧ wraps ring offset = true
  · rw [if_pos hcopy]
    exact ⟨fun hle _ _ => hle, fun hfits => hfits hcopy.1 hcopy.2⟩
  · rw [if_neg hcopy]
    exact ⟨fun _ hpacket hwraps => absurd ⟨hpacket, hwraps⟩ hcopy, fun _ => Nat.zero_le _⟩

omit h in
theorem frameAt_length : (frameAt ring offset).length = rxLen ring offset := by
  rw [frameAt, length_map, length_range]

theorem frameAt_byte (hmost : rxLen ring offset ≤ rxBufSize) {k : Nat} (hk : k < rxLen ring offset) :
    (frameAt ring offset)[k]? = some (ring ((offset + 4 + k) % rxBufSize)) := by
  have hlt := h.2
  unfold frameAt
  rw [getElem?_map, getElem?_range hk, Option.map_some]
  refine congrArg some ?_
  by_cases hsecond : wraps ring offset = true ∧ rxBufSize - (offset + 4) ≤ k
  · have hturn : offset + 4 + k - rxBufSize = k - (rxBufSize - (offset + 4)) := by
      have haligned := h.1
      unfold rxBufSize at *
      omega
    rw [if_pos (Bool.and_eq_true_iff.mpr ⟨hsecond.1, decide_eq_true hsecond.2⟩),
      Nat.mod_eq_sub_mod (by omega), hturn, Nat.mod_eq_of_lt (by omega)]
  · have hinside : offset + 4 + k < rxBufSize := by
      rw [wraps_iff] at hsecond
      omega
    rw [if_neg (by rwa [Bool.and_eq_true, decide_eq_true_iff]), Nat.mod_eq_of_lt hinside]

theorem leaves_aligned : Aligned (nextOffset ring offset) := by
  unfold nextOffset
  split
  · rename_i hpacket
    have hsize : rxBufSize = 32768 := rfl
    unfold Aligned advance
    dsimp only
    split <;> omega
  · exact h

end Turn

/-- A frame that goes on at the start of the ring fits into `frame_copy`. -/
def Fits (ring : Mem) (offset : Nat) : Prop :=
  isPacket ring offset = true → wraps ring offset = true → rxLen ring offset ≤ frameCopySize

/-- The offset before turn `n`, where `rings` is what the ring holds at each turn. A loop begins where the
one before it ended. -/
def offsetAt (rings : Nat → Mem) (offset : Nat) : Nat → Nat
  | 0 => offset
  | n + 1 => nextOffset (rings n) (offsetAt rings offset n)

theorem offsetAt_aligned {rings : Nat → Mem} {offset : Nat} (h : Aligned offset) (n : Nat) :
    Aligned (offsetAt rings offset n) := by
  induction n with
  | zero => exact h
  | succ n ih => exact leaves_aligned ih

theorem bounded_of_fits {ring : Mem} {offset : Nat} (h : Aligned offset) (hfits : Fits ring offset) :
    Bounded ring offset where
  reads := reads_inside h
  copies := copied_le_iff.mpr hfits
  passes hpacket := ⟨frameAt_length, fun _ => frameAt_byte h (isPacket_iff.mp hpacket).2.1⟩
  leaves := leaves_aligned h

/-- A turn keeps to the bounds just when a frame that goes on at the start of the ring has at most 2048 bytes. -/
theorem receives_bounded_iff (rings : Nat → Mem) {offset : Nat} (h : Aligned offset) (n : Nat) :
    Bounded (rings n) (offsetAt rings offset n) ↔ Fits (rings n) (offsetAt rings offset n) :=
  have haligned := offsetAt_aligned h n
  ⟨fun hbounded => copied_le_iff.mp hbounded.copies, bounded_of_fits haligned⟩

/-- A frame of 64 bytes that goes on at the start of the ring. -/
theorem receives_bounded_iff_wrapped : Aligned 32764 ∧
    Bounded (fun a => if a = 32764 then 1 else if a = 32766 then 64 else 0) 32764 := by
  have haligned : Aligned 32764 := by decide
  refine ⟨haligned, (receives_bounded_iff (fun _ a => if a = 32764 then 1 else
    if a = 32766 then 64 else 0) haligned 0).mpr fun _ _ => ?_⟩
  decide

def longHeader : Mem := fun a =>
  if a = 32764 then 1 else if a = 32766 then 1 else if a = 32767 then 8 else 0

/-- All of the frame is at the start of the ring, and is copied. -/
theorem not_receives_bounded : Aligned 32764 ∧ copied longHeader 32764 = 2049 ∧
      ¬ ∀ ring offset, Aligned offset → Bounded ring offset := by
  have haligned : Aligned 32764 := by decide
  have hcopied : copied longHeader 32764 = 2049 := by decide
  refine ⟨haligned, hcopied, fun hall => ?_⟩
  have hle := (hall longHeader 32764 haligned).copies
  exact absurd hle (by decide)

end JexOs.Rtl8139
