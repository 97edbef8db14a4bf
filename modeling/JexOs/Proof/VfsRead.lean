import JexOs.Vfs
import JexOs.Proof.JexFsMounted

/-!
# Reading a file piece by piece

Reads through one descriptor, of any sizes, hand out what one read of all the bytes does: each goes on where the last
one ended, also where that was short for the end of the file or a block that is not there.
-/

namespace JexOs.JexFs

theorem read_append {idx offset a b : Nat} (total : Nat) (d : ByteMem.Mem) (hidx : idx < 1032)
    (hfits : Fits idx) (hbound : offset + (a + b) < 2 ^ 32) : ∃ bytes rest,
      jexfsRead (layout total) d idx a offset = .ok bytes ∧ bytes.length ≤ a ∧ rest.length ≤ b ∧
      jexfsRead (layout total) d idx b (offset + bytes.length) = .ok rest ∧
      jexfsRead (layout total) d idx (a + b) offset = .ok (bytes ++ rest) := by
  obtain ⟨n, hn, hfirst, hmapped, hstop⟩ := read_run total hidx hfits (Eq.refl (inodeAt d idx))
    (show offset + a < 2 ^ 32 by omega)
  obtain ⟨m, hm, hsecond, hmapped', hstop'⟩ := read_run total hidx hfits (Eq.refl (inodeAt d idx))
    (show offset + n + b < 2 ^ 32 by omega)
  obtain ⟨k, hk, hboth, hall, hend⟩ := read_run total hidx hfits (Eq.refl (inodeAt d idx)) hbound
  have hsum : k = n + m := by
    rcases lt_trichotomy k (n + m) with hlt | heq | hgt
    · have hhole := hend.resolve_left (by omega)
      by_cases hpart : k < n
      · exact absurd hhole (hmapped k hpart)
      · have hnext := hmapped' (k - n) (by omega)
        rw [show offset + n + (k - n) = offset + k by omega] at hnext
        exact absurd hhole hnext
    · exact heq
    · have hlast := hstop.resolve_right (hall n (by omega))
      have hlast' := hstop'.resolve_right (by
        rw [Nat.add_assoc]
        exact hall (n + m) hgt)
      omega
  have hlength : ((List.range n).map fun k => fileByte d (inodeAt d idx) (offset + k)).length = n := by
    rw [List.length_map, List.length_range]
  refine ⟨_, (List.range m).map fun k => fileByte d (inodeAt d idx) (offset + n + k), hfirst, ?_, ?_, ?_, ?_⟩
  · omega
  · rw [List.length_map, List.length_range]
    omega
  · rw [hlength]
    exact hsecond
  · rw [hboth, hsum, map_range_add]
    simp only [Nat.add_assoc]

end JexOs.JexFs

namespace JexOs.Vfs

open JexFs

/-- The bytes that successive reads hand out, one behind the other. -/
def fsReads (fd : Int) : State → List Nat → Except Fault (List UInt8 × State)
  | vfs, [] => .ok ([], vfs)
  | vfs, size :: sizes => do
    let ((_, bytes), vfs) ← fsRead vfs fd size
    let (rest, vfs) ← fsReads fd vfs sizes
    return (bytes ++ rest, vfs)

section

variable {vfs : State} {fd : Int} {i : Fin maxOpenFiles} {total n : Nat}

theorem descriptor_eq_some : descriptor vfs fd = some i ↔ fd = i.val ∧ (vfs.fileTable i).used = true := by
  unfold descriptor
  constructor
  · intro h
    by_cases hfd : 0 ≤ fd ∧ fd < maxOpenFiles
    · rw [dif_pos hfd] at h
      dsimp only at h
      split at h
      · rename_i hused
        cases h
        exact ⟨by dsimp only; omega, hused⟩
      · cases h
    · rw [dif_neg hfd] at h
      cases h
  · rintro ⟨rfl, hused⟩
    have hlt := i.isLt
    rw [dif_pos (by omega)]
    simp [hused]

theorem fsRead_descriptor (h : descriptor vfs fd = some i) (size : Nat) : fsRead vfs fd size = (do
    let bytes ← jexfsRead vfs.fs.sb vfs.fs.disk (vfs.fileTable i).inode size (vfs.fileTable i).offset
    return (((bytes.length : Int), bytes), advance vfs i bytes.length)) := by
  have hlt : i.val < 32 := i.isLt
  have hfd := (descriptor_eq_some.mp h).1
  unfold fsRead
  rw [if_neg (by unfold virtualFdStart; omega), h]

theorem advance_eq (hbound : (vfs.fileTable i).offset + n < 2 ^ 32) : advance vfs i n = { vfs with
    fileTable := Function.update vfs.fileTable i
      { vfs.fileTable i with offset := (vfs.fileTable i).offset + n } } := by
  unfold advance
  split
  · rw [Int.toNat_natCast, Nat.mod_eq_of_lt hbound]
  · obtain rfl : n = 0 := by omega
    simp

theorem advance_advance {m n : Nat} (hbound : (vfs.fileTable i).offset + (m + n) < 2 ^ 32) :
    advance (advance vfs i m) i n = advance vfs i ((m + n : Nat) : Int) := by
  rw [advance_eq hbound, advance_eq (n := m) (by omega),
    advance_eq (by simp only [Function.update_self]; omega)]
  simp only [Function.update_self, Function.update_idem, Nat.add_assoc]

/-- **Reading piece by piece.** Nothing but the offset of the descriptor changes. -/
theorem fsReads_eq (hopen : descriptor vfs fd = some i) (hsb : vfs.fs.sb = layout total)
    (hinode : (vfs.fileTable i).inode < 1032) (hfits : Fits (vfs.fileTable i).inode) (sizes : List Nat)
    (hbound : (vfs.fileTable i).offset + sizes.sum < 2 ^ 32) : ∃ bytes,
      jexfsRead vfs.fs.sb vfs.fs.disk (vfs.fileTable i).inode sizes.sum (vfs.fileTable i).offset = .ok bytes ∧
      fsReads fd vfs sizes = .ok (bytes, advance vfs i bytes.length) := by
  induction sizes generalizing vfs with
  | nil =>
    rw [hsb]
    obtain ⟨n, hn, hread, -⟩ := read_run total hinode hfits (Eq.refl (inodeAt vfs.fs.disk _)) hbound
    obtain rfl : n = 0 := Nat.le_zero.mp hn
    exact ⟨[], hread, rfl⟩
  | cons size sizes ih =>
    rw [List.sum_cons] at hbound ⊢
    obtain ⟨bytes, rest, hfirst, hle, hle', hsecond, hboth⟩ :=
      read_append total vfs.fs.disk hinode hfits hbound
    have hnext := @advance_eq vfs i bytes.length (by omega)
    obtain ⟨hfd, hused⟩ := descriptor_eq_some.mp hopen
    -- the pieces that follow are read from where this one ended
    have hrest := @ih (advance vfs i bytes.length)
    simp only [descriptor_eq_some, hnext, Function.update_self, hsb, hsecond, forall_const] at hrest
    obtain ⟨_, hsame, hreads⟩ := hrest ⟨hfd, hused⟩ hinode hfits (by omega)
    cases hsame
    refine ⟨bytes ++ rest, hsb ▸ hboth, ?_⟩
    rw [← hnext] at hreads
    simp only [fsReads, fsRead_descriptor hopen, hsb, hfirst, bind, Except.bind, pure, Except.pure, hreads]
    rw [List.length_append, advance_advance (by omega)]

end

open JexFs in
/-- The file of the image holds two bytes. -/
theorem fsReads_eq_file : ∃ fs₀ vfs, Mounted 256 [{ name := [97], data := [1, 2] }] fs₀ ∧
    fsReads 0 { mounts := [], fileTable := fun _ => ⟨true, 0, 2⟩, fs := fs₀ } [1, 1, 4] =
      .ok ([1, 2], vfs) := by
  have hcompute : ((freshFs 256 [{ name := [97], data := [1, 2] }]).map fun fs =>
      (jexfsRead fs.sb fs.disk 2 6 0).map fun bytes => bytes) = some (.ok [1, 2]) := by decide +kernel
  obtain ⟨fs₀, _, hmount, hread, rfl⟩ := freshFs_call hcompute
  obtain ⟨rest, -, htidy⟩ := mounted_tidy (by decide) ⟨by decide, by decide⟩ hmount
  have hopen : descriptor { mounts := [], fileTable := fun _ => ⟨true, 0, 2⟩, fs := fs₀ } 0 =
      some ⟨0, by decide⟩ := descriptor_eq_some.mpr ⟨rfl, rfl⟩
  obtain ⟨bytes, hwhole, hreads⟩ := fsReads_eq hopen htidy.sb (show 2 < 1032 by decide)
    (show Fits 2 by unfold Fits; decide) [1, 1, 4] (show 0 + 6 < 2 ^ 32 by decide)
  cases hread.symm.trans hwhole
  exact ⟨fs₀, _, hmount, hreads⟩

end JexOs.Vfs
