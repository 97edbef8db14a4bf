import JexOs.Proof.Pmm

/-!
# Frames that a call has taken

`Lent s₀ s frames` says that the manager holds what it held in state `s₀`, and besides exactly the frames of a
list that were free then.
-/

namespace JexOs.Pmm

open List

structure Lent (s₀ s : State) (frames : List Nat) : Prop where
  nodup : frames.Nodup
  fresh : ∀ f ∈ frames, f < totalBlocks ∧ Bitmap.test s₀.bitmap f = false
  bits : ∀ f, Bitmap.test s.bitmap f = (decide (f ∈ frames) || Bitmap.test s₀.bitmap f)
  used : s.usedBlocks = s₀.usedBlocks + frames.length

structure SameFrames (s₀ s : State) : Prop where
  bits : ∀ f, Bitmap.test s.bitmap f = Bitmap.test s₀.bitmap f
  used : s.usedBlocks = s₀.usedBlocks

variable {s₀ s s' : State} {frames frames' : List Nat} {f : Nat}

theorem Lent.refl (s : State) : Lent s s [] :=
  { nodup := nodup_nil
    fresh := fun _ hf => absurd hf not_mem_nil
    bits := fun _ => rfl
    used := rfl }

theorem Lent.same (h : Lent s₀ s []) : SameFrames s₀ s := ⟨h.bits, h.used⟩

theorem SameFrames.refl (s : State) : SameFrames s s := (Lent.refl s).same

variable (h : Lent s₀ s frames)

include h

theorem Lent.perm (hperm : frames.Perm frames') : Lent s₀ s frames' :=
  { nodup := hperm.nodup_iff.mp h.nodup
    fresh := fun f hf => h.fresh f (hperm.mem_iff.mpr hf)
    bits := fun f => by
      rw [h.bits f]
      simp only [hperm.mem_iff]
    used := by rw [h.used, hperm.length_eq] }

theorem Lent.reserved (hset : Bitmap.test s₀.bitmap f = true) : Bitmap.test s.bitmap f = true := by
  rw [h.bits f, hset, Bool.or_true]

theorem Lent.free (hclear : Bitmap.test s.bitmap f = false) :
    f ∉ frames ∧ Bitmap.test s₀.bitmap f = false := by
  rw [h.bits f, Bool.or_eq_false_iff] at hclear
  exact ⟨of_decide_eq_false hclear.1, hclear.2⟩

theorem Lent.take (hf : f < totalBlocks)
    (hclear : Bitmap.test s.bitmap f = false) : Lent s₀ (s.markUsed f) (f :: frames) :=
  { nodup := nodup_cons.mpr ⟨(h.free hclear).1, h.nodup⟩
    fresh := fun g hg => by
      rcases mem_cons.mp hg with rfl | hmem
      · exact ⟨hf, (h.free hclear).2⟩
      · exact h.fresh g hmem
    bits := fun g => by
      rw [State.markUsed, Bitmap.test_set, h.bits g, ← Bool.or_assoc]
      simp only [mem_cons, Bool.decide_or]
    used := by
      rw [State.markUsed, h.used, length_cons, Nat.add_assoc] }

omit h in
theorem Lent.release (h : Lent s₀ s (f :: frames)) : Lent s₀ (s.release f) frames := by
  obtain ⟨hnot, hnodup⟩ := nodup_cons.mp h.nodup
  have hset : Bitmap.test s.bitmap f = true := by
    rw [h.bits f, decide_eq_true mem_cons_self, Bool.true_or]
  refine
    { nodup := hnodup
      fresh := fun g hg => h.fresh g (mem_cons_of_mem f hg)
      bits := fun g => ?_
      used := ?_ }
  · rw [test_release, h.bits g]
    by_cases heq : g = f
    · rw [heq, decide_eq_false hnot, (h.fresh f mem_cons_self).2]
      simp
    · simp [heq]
  · have hused := h.used
    rw [length_cons] at hused
    rw [State.release, if_pos hset, State.markFree]
    simp only
    omega

theorem Lent.trans (h' : Lent s s' frames') : Lent s₀ s' (frames' ++ frames) :=
  { nodup := nodup_append.mpr ⟨h'.nodup, h.nodup, fun f hf g hg heq =>
      (h.free (h'.fresh f hf).2).1 (heq ▸ hg)⟩
    fresh := fun f hf => by
      rcases mem_append.mp hf with hmem | hmem
      · exact ⟨(h'.fresh f hmem).1, (h.free (h'.fresh f hmem).2).2⟩
      · exact h.fresh f hmem
    bits := fun f => by
      rw [h'.bits f, h.bits f, ← Bool.or_assoc]
      simp only [mem_append, Bool.decide_or]
    used := by
      rw [h'.used, h.used, length_append]
      omega }

omit h in
theorem pmmAllocBlock_taken (hzero : Bitmap.test s.bitmap 0 = true) :
    pmmAllocBlock s = (0, s) ∨ ∃ f, f < totalBlocks ∧ Bitmap.test s.bitmap f = false ∧ f ≠ 0 ∧
      pmmAllocBlock s = (f * blockSize, s.markUsed f) := by
  unfold pmmAllocBlock
  split
  · exact .inl rfl
  · cases hsearch : bitmapFirstFree s.bitmap with
    | none => exact .inl rfl
    | some f =>
      obtain ⟨hf, hclear, -⟩ := bitmapFirstFree_some hsearch
      refine .inr ⟨f, hf, hclear, ?_, rfl⟩
      rintro rfl
      rw [hzero] at hclear
      cases hclear

omit h in
theorem pmmFreeBlock_frame (s : State) (hf : f < totalBlocks) :
    pmmFreeBlock s (f * blockSize) = s.release f := by
  unfold pmmFreeBlock
  rw [Nat.mul_div_cancel f (by decide), if_neg (not_le.mpr hf)]

theorem Lent.alloc (hzero : Bitmap.test s₀.bitmap 0 = true) :
    pmmAllocBlock s = (0, s) ∨ ∃ f, f ≠ 0 ∧ (pmmAllocBlock s).1 = f * blockSize ∧
      Lent s₀ (pmmAllocBlock s).2 (f :: frames) := by
  rcases pmmAllocBlock_taken (h.reserved hzero) with hnone | ⟨f, hf, hclear, hne, halloc⟩
  · exact .inl hnone
  · refine .inr ⟨f, hne, ?_, ?_⟩
    · rw [halloc]
    · rw [halloc]
      exact h.take hf hclear

omit h in
theorem Lent.giveBack (h : Lent s₀ s (f :: frames)) : Lent s₀ (pmmFreeBlock s (f * blockSize)) frames := by
  rw [pmmFreeBlock_frame s (h.fresh f mem_cons_self).1]
  exact h.release

omit h in
theorem Lent.giveBackAll (h : Lent s₀ s (frames ++ frames')) :
    Lent s₀ ((frames.map (· * blockSize)).foldl pmmFreeBlock s) frames' := by
  induction frames generalizing s with
  | nil => exact h
  | cons f frames ih => exact ih h.giveBack

theorem Lent.length_le : frames.length ≤ freeBelow s₀ totalBlocks := by
  unfold freeBelow
  rw [Nat.count_eq_card_filter_range, ← toFinset_card_of_nodup h.nodup]
  refine Finset.card_le_card fun f hf => ?_
  obtain ⟨hlt, hclear⟩ := h.fresh f (mem_toFinset.mp hf)
  exact Finset.mem_filter.mpr ⟨Finset.mem_range.mpr hlt, hclear⟩

theorem Lent.same_iff : SameFrames s₀ s ↔ frames = [] := by
  refine ⟨fun hsame => ?_, fun hnil => (hnil ▸ h).same⟩
  have hused := h.used
  rw [hsame.used] at hused
  exact length_eq_zero_iff.mp (by omega)

theorem Lent.same_frames (hsame : SameFrames s s') : Lent s₀ s' frames :=
  { nodup := h.nodup
    fresh := h.fresh
    bits := fun f => (hsame.bits f).trans (h.bits f)
    used := hsame.used.trans h.used }

end JexOs.Pmm
