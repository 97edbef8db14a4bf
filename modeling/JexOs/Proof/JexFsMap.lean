import JexOs.Proof.JexFsBlocks
import Mathlib.Order.Interval.Finset.Nat

/-!
# Mapping a logical block

`jexfs_bmap_alloc` takes up to three blocks one after another and enters each into an empty slot.
-/

namespace JexOs.JexFs

open ByteMem Ownership Finset

theorem toNat_ofNat {nb : Nat} (h : nb < 65536) : (UInt16.ofNat nb).toNat = nb := by
  exact Nat.mod_eq_of_lt h

theorem blockBit_set (d : Mem) (nb b : Nat) :
    blockBit (Bitmap.set d (24576 + nb)) b = (decide (b = nb) || blockBit d b) := by
  unfold blockBit
  rw [Bitmap.test_set]
  simp only [Nat.add_left_cancel_iff]

theorem blockBit_congr {d d' : Mem} {b : Nat} (hb : b < 65536)
    (h : ∀ k, 3072 ≤ k → k < 11264 → d' k = d k) : blockBit d' b = blockBit d b :=
  test_congr (h _ (by omega) (by omega))

structure Fresh (d : Mem) (nb : Nat) : Prop where
  low : 54 ≤ nb
  high : nb < 65536
  free : blockBit d nb = false

section Links

variable {nb : Nat} {d d' : Mem} {v : Inode}

theorem Fresh.not_used (h : Fresh d nb) : ¬Used d nb := by
  rintro ⟨-, -, hbit⟩
  rw [h.free] at hbit
  cases hbit

variable {k b x a : Nat}

theorem Fresh.set_of_outside (h : Fresh d nb) (hk : k < 3072 ∨ 11264 ≤ k) :
    Bitmap.set d (24576 + nb) k = d k := by
  have := h.high
  exact set_of_ne (by omega)

theorem Fresh.slotBlock_eq (hfresh : Fresh d nb) (h : Placed d v)
    (hsame : ∀ k, 11264 ≤ k → k / 1024 ≠ nb → d' k = d k) (s : Slot) : slotBlock d' v s = slotBlock d v s := by
  refine slotBlock_congr fun t _ ht k hk => ?_
  have hused := h.used t ht
  have hge := hused.1
  refine hsame _ (by omega) fun heq => hfresh.not_used ?_
  rwa [show nb = slotBlock d v t by omega]

theorem links_direct (hfresh : Fresh d nb) (h : Placed d v) {i : Fin 8} (hempty : v.directBlocks i = 0) :
    Links d v (Bitmap.set d (24576 + nb))
      { v with directBlocks := Function.update v.directBlocks i (UInt16.ofNat nb) }
      (.direct i) nb := by
  have hsame : ∀ s, slotBlock (Bitmap.set d (24576 + nb)) v s = slotBlock d v s :=
    hfresh.slotBlock_eq h fun k hk _ => hfresh.set_of_outside (.inr hk)
  exact
    { low := hfresh.low
      high := hfresh.high
      free := hfresh.free
      bits := fun b _ => blockBit_set d nb b
      empty := by simp [slotBlock, hempty]
      not_second := by simp
      slots := by
        intro s
        cases s with
        | direct j =>
          by_cases hj : j = i
          · subst hj
            simp [slotBlock, toNat_ofNat hfresh.high]
          · simp [slotBlock, hj]
        | indirect => exact hsame .indirect
        | entry j => exact hsame (.entry j)
        | double => exact hsame .double
        | first j => exact hsame (.first j)
        | second j j' => exact hsame (.second j j')
      rest := fun k _ hk _ _ => hfresh.set_of_outside hk
      sub :=
        { direct := by
            intro j
            by_cases hj : j = i
            · subst hj
              exact .inl hempty
            · simp [hj]
          indirect := .inr rfl
          double := .inr rfl }
      mode := rfl
      size := rfl }

theorem load16_zeroed {i : Nat} (hi : i < 512) : load16 (writeBlock d b zeroBlock) (1024 * b + 2 * i) = 0 := by
  unfold load16 writeBlock
  rw [blit_of_mem (by omega) (by omega), blit_of_mem (by omega) (by omega)]
  rfl

theorem writeBlock_of_ne {buf : Mem} (h : k / 1024 ≠ b) : writeBlock d b buf k = d k := by
  rcases lt_or_ge k (1024 * b) with hlt | hge
  · exact blit_of_lt hlt
  · exact blit_of_ge (by omega)

theorem bits_of_same (hsame : ∀ k, 3072 ≤ k → k < 11264 → d' k = Bitmap.set d (24576 + nb) k) (b : Nat)
    (hb : b < 65536) : blockBit d' b = (decide (b = nb) || blockBit d b) := by
  rw [blockBit_congr hb hsame, blockBit_set]

theorem links_indirect (hfresh : Fresh d nb) (h : Placed d v) (hempty : v.indirectBlock = 0) :
    Links d v (writeBlock (Bitmap.set d (24576 + nb)) nb zeroBlock)
      { v with indirectBlock := UInt16.ofNat nb } .indirect nb := by
  have hlow := hfresh.low
  have hsame : ∀ s, slotBlock (writeBlock (Bitmap.set d (24576 + nb)) nb zeroBlock) v s =
      slotBlock d v s :=
    hfresh.slotBlock_eq h fun k hk hne => by
      rw [writeBlock_of_ne hne, hfresh.set_of_outside (.inr hk)]
  exact
    { low := hfresh.low
      high := hfresh.high
      free := hfresh.free
      bits := bits_of_same fun k hk hk' => writeBlock_of_ne (by omega)
      empty := by simp [slotBlock, hempty]
      not_second := by simp
      slots := by
        intro s
        cases s with
        | direct j => exact hsame (.direct j)
        | indirect => simp [slotBlock, toNat_ofNat hfresh.high]
        | entry j =>
          simp only [slotBlock, toNat_ofNat hfresh.high, hempty, reduceCtorEq, if_false]
          rw [if_neg (by omega), load16_zeroed j.isLt]
          rfl
        | double => exact hsame .double
        | first j => exact hsame (.first j)
        | second j j' => exact hsame (.second j j')
      rest := fun k _ hk hne _ => by
        rw [writeBlock_of_ne hne, hfresh.set_of_outside hk]
      sub := ⟨fun _ => .inr rfl, .inl hempty, .inr rfl⟩
      mode := rfl
      size := rfl }

theorem links_double (hfresh : Fresh d nb) (h : Placed d v) (hempty : v.doubleIndirect = 0) :
    Links d v (writeBlock (Bitmap.set d (24576 + nb)) nb zeroBlock)
      { v with doubleIndirect := UInt16.ofNat nb } .double nb := by
  have hlow := hfresh.low
  have hsame : ∀ s, slotBlock (writeBlock (Bitmap.set d (24576 + nb)) nb zeroBlock) v s =
      slotBlock d v s :=
    hfresh.slotBlock_eq h fun k hk hne => by
      rw [writeBlock_of_ne hne, hfresh.set_of_outside (.inr hk)]
  exact
    { low := hfresh.low
      high := hfresh.high
      free := hfresh.free
      bits := bits_of_same fun k hk hk' => writeBlock_of_ne (by omega)
      empty := by simp [slotBlock, hempty]
      not_second := by simp
      slots := by
        intro s
        cases s with
        | direct j => exact hsame (.direct j)
        | indirect => exact hsame .indirect
        | entry j => exact hsame (.entry j)
        | double => simp [slotBlock, toNat_ofNat hfresh.high]
        | first j =>
          simp only [slotBlock, toNat_ofNat hfresh.high, hempty, reduceCtorEq, if_false]
          rw [if_neg (by omega), load16_zeroed j.isLt]
          rfl
        | second j j' =>
          simp only [slotBlock, toNat_ofNat hfresh.high, hempty, reduceCtorEq, if_false]
          rw [if_neg (by omega), if_pos (load16_zeroed j.isLt)]
          rfl
      rest := fun k _ hk hne _ => by
        rw [writeBlock_of_ne hne, hfresh.set_of_outside hk]
      sub := ⟨fun _ => .inr rfl, .inr rfl, .inl hempty⟩
      mode := rfl
      size := rfl }

theorem load16_store16_of_ne {a' : Nat} (h : a + 2 ≤ a' ∨ a' + 2 ≤ a) :
    load16 (store16 d a x) a' = load16 d a' := by
  refine load16_congr fun k hlow hhigh => ?_
  rcases h with h | h
  · exact blit_of_ge (by omega)
  · exact blit_of_lt (by omega)

theorem store16_of_block_ne (ha : 1024 * b ≤ a) (ha' : a + 2 ≤ 1024 * b + 1024)
    (h : k / 1024 ≠ b) : store16 d a x k = d k := by
  rcases lt_or_ge k a with hlt | hge
  · exact blit_of_lt hlt
  · exact blit_of_ge (by omega)

theorem slotBlock_store16 (hfresh : Fresh d nb) (h : Placed d v)
    {t s : Slot} {j : Nat} (hj : j < 512) (ht : slotBlock d v t ≠ 0) (hnot : ¬s.Under t)
    (hd' : ∀ k, 11264 ≤ k → k / 1024 ≠ nb →
      d' k = store16 (Bitmap.set d (24576 + nb)) (1024 * slotBlock d v t + 2 * j) nb k) :
    slotBlock d' v s = slotBlock d v s := by
  refine slotBlock_congr fun u hu hne k hk => ?_
  have hused := h.used u hne
  have hge := hused.1
  have hut : slotBlock d v u ≠ slotBlock d v t := by
    intro heq
    rw [h.unique t u ht heq] at hu
    exact hnot hu
  have hnb : slotBlock d v u ≠ nb := fun heq => hfresh.not_used (heq ▸ hused)
  rw [hd' _ (by omega) (by omega), store16_of_block_ne (b := slotBlock d v t) (by omega) (by omega)
    (by omega), hfresh.set_of_outside (.inr (by omega))]

theorem links_entry (hfresh : Fresh d nb) (h : Placed d v) {j : Fin 512} (htable : v.indirectBlock.toNat ≠ 0)
    (hempty : load16 d (1024 * v.indirectBlock.toNat + 2 * j) = 0) :
    Links d v (store16 (Bitmap.set d (24576 + nb)) (1024 * v.indirectBlock.toNat + 2 * j) nb) v
      (.entry j) nb := by
  have hused := h.used .indirect htable
  have hge : 54 ≤ v.indirectBlock.toNat := hused.1
  have hsame : ∀ s, ¬s.Under .indirect →
      slotBlock (store16 (Bitmap.set d (24576 + nb)) (1024 * v.indirectBlock.toNat + 2 * j) nb) v s =
        slotBlock d v s := fun s hs =>
    slotBlock_store16 (t := .indirect) hfresh h j.isLt htable hs fun k _ _ => rfl
  exact
    { low := hfresh.low
      high := hfresh.high
      free := hfresh.free
      bits := bits_of_same fun k hk hk' =>
        store16_of_block_ne (b := v.indirectBlock.toNat) (by omega) (by omega) (by omega)
      empty := by simp [slotBlock, htable, hempty]
      not_second := by simp
      slots := by
        intro s
        cases s with
        | direct i => exact hsame (.direct i) id
        | indirect => exact hsame .indirect id
        | double => exact hsame .double id
        | first i => exact hsame (.first i) id
        | second i i' => exact hsame (.second i i') id
        | entry i =>
          simp only [slotBlock, if_neg htable, Slot.entry.injEq]
          by_cases hi : i = j
          · rw [if_pos hi, hi, load16_store16 hfresh.high]
          · rw [if_neg hi, load16_store16_of_ne (by omega)]
            exact load16_congr fun k hk hk' => hfresh.set_of_outside (.inr (by omega))
      rest := by
        intro k _ hk _ hnot
        have hne := hnot .indirect trivial
        rw [store16_of_block_ne (b := v.indirectBlock.toNat) (by omega) (by omega) (Ne.symm hne),
          hfresh.set_of_outside hk]
      sub := Inode.Sub.refl v
      mode := rfl
      size := rfl }

theorem links_first (hfresh : Fresh d nb) (h : Placed d v) {i : Fin 512} (htable : v.doubleIndirect.toNat ≠ 0)
    (hempty : load16 d (1024 * v.doubleIndirect.toNat + 2 * i) = 0) :
    Links d v (writeBlock (store16 (Bitmap.set d (24576 + nb))
      (1024 * v.doubleIndirect.toNat + 2 * i) nb) nb zeroBlock) v (.first i) nb := by
  have hused := h.used .double htable
  have hge : 54 ≤ v.doubleIndirect.toNat := hused.1
  have hlow := hfresh.low
  have hnb : v.doubleIndirect.toNat ≠ nb := by
    intro heq
    exact hfresh.not_used (heq ▸ hused)
  generalize hd' : writeBlock (store16 (Bitmap.set d (24576 + nb))
    (1024 * v.doubleIndirect.toNat + 2 * i) nb) nb zeroBlock = d'
  have hsame : ∀ s, ¬s.Under .double → slotBlock d' v s = slotBlock d v s := fun s hs =>
    slotBlock_store16 (t := .double) hfresh h i.isLt htable hs fun k _ hne => by
      rw [← hd', writeBlock_of_ne hne]
      rfl
  have hfirst : ∀ a : Fin 512, load16 d' (1024 * v.doubleIndirect.toNat + 2 * a) =
      if a = i then nb else load16 d (1024 * v.doubleIndirect.toNat + 2 * a) := by
    intro a
    have hpeel : load16 d' (1024 * v.doubleIndirect.toNat + 2 * a) =
        load16 (store16 (Bitmap.set d (24576 + nb)) (1024 * v.doubleIndirect.toNat + 2 * i) nb)
          (1024 * v.doubleIndirect.toNat + 2 * a) := by
      rw [← hd']
      exact load16_congr fun k hk hk' => writeBlock_of_ne (by omega)
    rw [hpeel]
    by_cases ha : a = i
    · rw [if_pos ha, ha, load16_store16 hfresh.high]
    · rw [if_neg ha, load16_store16_of_ne (by omega)]
      exact load16_congr fun k hk hk' => hfresh.set_of_outside (.inr (by omega))
  exact
    { low := hfresh.low
      high := hfresh.high
      free := hfresh.free
      bits := bits_of_same fun k hk hk' => by
        rw [← hd', writeBlock_of_ne (by omega)]
        exact store16_of_block_ne (b := v.doubleIndirect.toNat) (by omega) (by omega) (by omega)
      empty := by simp [slotBlock, htable, hempty]
      not_second := by simp
      slots := by
        intro s
        cases s with
        | direct a => exact hsame (.direct a) id
        | indirect => exact hsame .indirect id
        | double => exact hsame .double id
        | entry a => exact hsame (.entry a) id
        | first a => simp only [slotBlock, if_neg htable, Slot.first.injEq, hfirst a]
        | second a b =>
          simp only [slotBlock, if_neg htable, hfirst a, reduceCtorEq, if_false]
          by_cases ha : a = i
          · rw [if_pos ha, if_neg (by omega), ha, if_pos hempty, ← hd', load16_zeroed b.isLt]
          · rw [if_neg ha]
            split
            · rfl
            · rename_i hne
              -- the table in another entry is neither the new one nor the one it is entered in
              have hother := h.used (.first a) (by simpa [slotBlock, htable] using hne)
              have hdistinct := h.unique .double (.first a) htable
              simp only [slotBlock, if_neg htable, reduceCtorEq, imp_false] at hother hdistinct
              refine load16_block_congr b.isLt fun k hk => ?_
              have hgea := hother.1
              have hnba : load16 d (1024 * v.doubleIndirect.toNat + 2 * a) ≠ nb := by
                intro heq
                exact hfresh.not_used (heq ▸ hother)
              rw [← hd', writeBlock_of_ne (by omega), store16_of_block_ne
                (b := v.doubleIndirect.toNat) (by omega) (by omega) (by omega),
                hfresh.set_of_outside (.inr (by omega))]
      rest := by
        intro k _ hk hne hnot
        have hdouble := hnot .double trivial
        rw [← hd', writeBlock_of_ne hne,
          store16_of_block_ne (b := v.doubleIndirect.toNat) (by omega) (by omega) (Ne.symm hdouble),
          hfresh.set_of_outside hk]
      sub := Inode.Sub.refl v
      mode := rfl
      size := rfl }

end Links

section Free

variable {total : Nat} {d d' : Mem}

def freeBlocksLeft (total : Nat) (d : Mem) : Finset Nat :=
  (Finset.Ico 54 (min total 65536)).filter fun b => blockBit d b = false

def freeCount (total : Nat) (d : Mem) : Nat := (freeBlocksLeft total d).card

theorem freeBlocksLeft_congr (h : ∀ k, 3072 ≤ k → k < 11264 → d' k = d k) :
    freeBlocksLeft total d' = freeBlocksLeft total d := by
  refine filter_congr fun b hb => ?_
  rw [mem_Ico] at hb
  rw [blockBit_congr (by omega) h]

variable {nb : Nat}

section

variable (h : jexfsAllocBlock (layout total) d = some (nb, d'))

include h

theorem allocBlock_erase :
    nb ∈ freeBlocksLeft total d ∧ freeBlocksLeft total d' = (freeBlocksLeft total d).erase nb := by
  obtain ⟨hlow, htotal, hhigh, hfree, hd'⟩ := allocBlock_cases h
  constructor
  · rw [freeBlocksLeft, mem_filter, mem_Ico]
    exact ⟨by omega, hfree⟩
  · ext b
    simp only [freeBlocksLeft, mem_filter, mem_erase, hd', blockBit_set,
      Bool.or_eq_false_iff, decide_eq_false_iff_not]
    tauto

theorem allocBlock_fresh :
    Fresh d nb ∧ d' = Bitmap.set d (24576 + nb) ∧ freeCount total d' + 1 = freeCount total d := by
  obtain ⟨hlow, htotal, hhigh, hfree, hd'⟩ := allocBlock_cases h
  obtain ⟨hmem, herase⟩ := allocBlock_erase h
  refine ⟨⟨hlow, hhigh, hfree⟩, hd', ?_⟩
  rw [freeCount, freeCount, herase, card_erase_add_one hmem]

/-- How many free blocks come before block `b`: the driver hands them out from the lowest one up. -/
def freeBefore (total : Nat) (d : Mem) (b : Nat) : Nat :=
  ((freeBlocksLeft total d).filter (· < b)).card

omit h in
theorem freeBefore_congr (h : ∀ k, 3072 ≤ k → k < 11264 → d' k = d k) (b : Nat) :
    freeBefore total d' b = freeBefore total d b := by
  unfold freeBefore
  rw [freeBlocksLeft_congr h]

theorem freeBefore_alloc : freeBefore total d nb = 0 ∧ ∀ b, b ∈ freeBlocksLeft total d' →
      freeBefore total d b = freeBefore total d' b + 1 := by
  obtain ⟨hmem, herase⟩ := allocBlock_erase h
  have hleast : ∀ b, b ∈ freeBlocksLeft total d → nb ≤ b := by
    intro b hb
    rw [freeBlocksLeft, mem_filter, mem_Ico] at hb
    exact allocBlock_least h hb.1.1 (by omega) hb.2
  refine ⟨?_, fun b hb => ?_⟩
  · rw [freeBefore, card_eq_zero, filter_eq_empty_iff]
    exact fun b hb => Nat.not_lt_of_le (hleast b hb)
  · rw [herase, mem_erase] at hb
    have hlt : nb < b := Nat.lt_of_le_of_ne (hleast b hb.2) (Ne.symm hb.1)
    unfold freeBefore
    rw [herase, filter_erase, card_erase_add_one]
    exact mem_filter.mpr ⟨hmem, hlt⟩

end

theorem allocBlock_eq_none (h : jexfsAllocBlock (layout total) d = none) : freeCount total d = 0 := by
  rw [freeCount, card_eq_zero, freeBlocksLeft, filter_eq_empty_iff]
  intro b hb
  rw [mem_Ico] at hb
  rw [allocBlock_none h hb.1 (by omega) (by omega)]
  exact Bool.noConfusion

end Free

structure Mapped (total idx lblock : Nat) (d : Mem) (v : Inode) (r : Ret Nat) (v' : Inode)
    (d' : Mem) : Prop where
  grows : Grows (lblock < 520) idx d v d' v'
  found : ∀ b, r = .ok b → 54 ≤ b ∧ b < 65536 ∧
    (∀ i s, Live d' i → slotBlock d' (view d' idx v' i) s = b → i = idx ∧ ¬s.IsTable) ∧
    (lblock < 520 → slotBlock d' v' (dataSlot lblock) = b)
  failed : ∀ e, r = .error e → v' = v ∨ 520 ≤ lblock ∨
    (v.indirectBlock = 0 ∧ 8 ≤ lblock ∧ freeCount total d = 1)
  full : freeCount total d = 0 →
    v' = v ∧ d' = d ∧ (jexfsBmap d v lblock = 0 → ∃ e, r = .error e)

section Mapped

variable {total idx : Nat} {d d' : Mem} {v v' : Inode} {c : Prop} {b lblock nb : Nat} {r : Ret Nat}

theorem Grows.found (h : Grows c idx d v d' v')
    (hidx : Live d idx) (hslot : slotBlock d' v' (dataSlot lblock) = b) (hb : b ≠ 0) : 54 ≤ b ∧ b < 65536 ∧
      (∀ i s, Live d' i → slotBlock d' (view d' idx v' i) s = b → i = idx ∧ ¬s.IsTable) ∧
      (lblock < 520 → slotBlock d' v' (dataSlot lblock) = b) := by
  have hidx' := (h.live idx).mpr hidx
  have hused := (h.sound.placed hidx').used (dataSlot lblock) (by rwa [hslot])
  rw [hslot] at hused
  refine ⟨hused.1, hused.2.1, fun i s hi heq => ?_, fun _ => hslot⟩
  have hunique := h.sound.unique hidx' hi (dataSlot lblock) s
  rw [view_self, hslot] at hunique
  obtain ⟨hi', hs⟩ := hunique hb heq
  exact ⟨hi', hs ▸ dataSlot_not_table lblock⟩

theorem bmapAllocDirect_mapped (h : Sound d (view d idx v)) (hidx : Live d idx)
    (hlt : lblock < 8) (hempty : jexfsBmap d v lblock = 0)
    (hrun : bmapAllocDirect (layout total) d v ⟨lblock, hlt⟩ = (r, v', d')) :
    Mapped total idx lblock d v r v' d' := by
  have hdirect : v.directBlocks ⟨lblock, hlt⟩ = 0 := by
    rw [jexfsBmap, dif_pos hlt] at hempty
    exact toNat_eq_zero.mp hempty
  unfold bmapAllocDirect at hrun
  cases halloc : jexfsAllocBlock (layout total) d with
  | none =>
    rw [halloc] at hrun
    cases hrun
    exact
      { grows := Grows.refl h
        found := fun b hb => by cases hb
        failed := fun _ _ => .inl rfl
        full := fun _ => ⟨rfl, rfl, fun _ => ⟨_, rfl⟩⟩ }
  | some p =>
    obtain ⟨nb, d₁⟩ := p
    obtain ⟨hfresh, rfl, hcount⟩ := allocBlock_fresh halloc
    rw [halloc] at hrun
    cases hrun
    have hgrows := Grows.link (c := lblock < 520) h hidx (links_direct hfresh (h.placed hidx) hdirect)
    refine ⟨hgrows, fun b hb => ?_, fun e he => (by cases he), fun hfull => (by omega)⟩
    cases hb
    refine hgrows.found hidx ?_ (by have := hfresh.low; omega)
    simp [dataSlot, hlt, slotBlock, toNat_ofNat hfresh.high]

theorem ensureTable_cases {x t : UInt16} (h : ensureTable (layout total) d x = some (t, d')) :
    (x ≠ 0 ∧ t = x ∧ d' = d) ∨ (x = 0 ∧ ∃ nb, Fresh d nb ∧ t = UInt16.ofNat nb ∧
        d' = writeBlock (Bitmap.set d (24576 + nb)) nb zeroBlock ∧
        freeCount total d' + 1 = freeCount total d) := by
  unfold ensureTable at h
  by_cases hx : x = 0
  · rw [if_neg (by simpa using hx)] at h
    split at h
    · cases h
    · rename_i nb d₁ halloc
      cases h
      obtain ⟨hfresh, rfl, hcount⟩ := allocBlock_fresh halloc
      refine .inr ⟨hx, nb, hfresh, rfl, rfl, ?_⟩
      have hlow := hfresh.low
      rw [freeCount, freeBlocksLeft_congr (d := Bitmap.set d (24576 + nb)) fun k hk hk' =>
        writeBlock_of_ne (by omega)]
      exact hcount
  · rw [if_pos hx] at h
    cases h
    exact .inl ⟨hx, rfl, rfl⟩

theorem ensureTable_none {x : UInt16} (h : ensureTable (layout total) d x = none) :
    x = 0 ∧ jexfsAllocBlock (layout total) d = none := by
  unfold ensureTable at h
  by_cases hx : x = 0
  · rw [if_neg (by simpa using hx)] at h
    split at h
    · rename_i halloc
      exact ⟨hx, halloc⟩
    · cases h
  · rw [if_pos hx] at h
    cases h

theorem readBlock_set (hfresh : Fresh d nb) (hb : 54 ≤ b) :
    readBlock (Bitmap.set d (24576 + nb)) b = readBlock d b := by
  funext k
  exact hfresh.set_of_outside (.inr (by omega))

variable (h : Sound d (view d idx v))

include h

variable (hidx : Live d idx)

include hidx

theorem indirectEntry_grows {adj : Nat} (hadj : adj < 512) (htable : v.indirectBlock ≠ 0)
    (hempty : load16 (readBlock d v.indirectBlock.toNat) (2 * adj) = 0) (hfresh : Fresh d nb) :
    let d' := writeBlock (Bitmap.set d (24576 + nb)) v.indirectBlock.toNat
      (store16 (readBlock d v.indirectBlock.toNat) (2 * adj) nb)
    Grows c idx d v d' v ∧ slotBlock d' v (dataSlot (adj + 8)) = nb := by
  have htable' : v.indirectBlock.toNat ≠ 0 := fun h0 => htable (toNat_eq_zero.mp h0)
  have hge : 54 ≤ v.indirectBlock.toNat := ((h.placed hidx).used .indirect htable').1
  have hlink := links_entry (j := ⟨adj, hadj⟩) hfresh (h.placed hidx) htable' hempty
  rw [← readBlock_set hfresh hge, writeBlock_store16 (by omega)]
  refine ⟨Grows.link h hidx hlink, ?_⟩
  rw [hlink.slots, if_pos]
  unfold dataSlot
  rw [dif_neg (by omega)]
  congr 1
  ext
  simp only [Fin.val_ofNat]
  omega

theorem bmapAllocIndirect_mapped (hlow : 8 ≤ lblock) (hhigh : lblock < 520) (hempty : jexfsBmap d v lblock = 0)
    (hrun : bmapAllocIndirect (layout total) d v (lblock - 8) = (r, v', d')) :
    Mapped total idx lblock d v r v' d' := by
  unfold bmapAllocIndirect at hrun
  cases hens : ensureTable (layout total) d v.indirectBlock with
  | none =>
    rw [hens] at hrun
    cases hrun
    exact
      { grows := Grows.refl h
        found := fun b hb => by cases hb
        failed := fun _ _ => .inl rfl
        full := fun _ => ⟨rfl, rfl, fun _ => ⟨_, rfl⟩⟩ }
  | some p =>
    obtain ⟨table, d₁⟩ := p
    rw [hens] at hrun
    dsimp only at hrun
    generalize hv₁ : { v with indirectBlock := table } = v₁ at hrun
    -- the table is there, and empty at the entry
    have hfirst : Grows (lblock < 520) idx d v d₁ v₁ ∧ v₁.indirectBlock = table ∧ table ≠ 0 ∧
        load16 (readBlock d₁ table.toNat) (2 * (lblock - 8)) = 0 ∧
        ((v₁ = v ∧ d₁ = d) ∨
          (v.indirectBlock = 0 ∧ freeCount total d₁ + 1 = freeCount total d)) := by
      rcases ensureTable_cases hens with ⟨hne, rfl, rfl⟩ | ⟨h0, nb, hfresh, rfl, rfl, hcount⟩
      · subst hv₁
        refine ⟨Grows.refl h, rfl, hne, ?_, .inl ⟨rfl, rfl⟩⟩
        rw [jexfsBmap, dif_neg (by omega), if_pos (by omega), if_neg hne] at hempty
        exact hempty
      · have hlink := links_indirect hfresh (h.placed hidx) h0
        have hnb := hfresh.low
        refine ⟨hv₁ ▸ Grows.link h hidx hlink, hv₁ ▸ rfl, ?_, ?_, .inr ⟨h0, hcount⟩⟩
        · rw [Ne, ← toNat_eq_zero, toNat_ofNat hfresh.high]
          omega
        · rw [load16_readBlock, toNat_ofNat hfresh.high, load16_zeroed (by omega)]
    obtain ⟨hgrows, htable, hne, hentry, hbefore⟩ := hfirst
    subst htable
    rw [if_pos hentry] at hrun
    have hidx₁ := (hgrows.live idx).mpr hidx
    cases halloc : jexfsAllocBlock (layout total) d₁ with
    | none =>
      rw [halloc] at hrun
      cases hrun
      have hcount := allocBlock_eq_none halloc
      refine ⟨hgrows, fun b hb => (by cases hb), fun _ _ => ?_, fun hfull => ?_⟩
      · rcases hbefore with ⟨heq, -⟩ | ⟨h0, hless⟩
        · exact .inl heq
        · exact .inr (.inr ⟨h0, hlow, by omega⟩)
      · rcases hbefore with ⟨hv, hd⟩ | ⟨-, hless⟩
        · exact ⟨hv, hd, fun _ => ⟨_, rfl⟩⟩
        · omega
    | some q =>
      obtain ⟨nb, d₂⟩ := q
      obtain ⟨hfresh, rfl, hcount⟩ := allocBlock_fresh halloc
      rw [halloc] at hrun
      dsimp only at hrun
      rw [load16_store16 hfresh.high] at hrun
      cases hrun
      obtain ⟨hentered, hslot⟩ := indirectEntry_grows hgrows.sound hidx₁
        (show lblock - 8 < 512 by omega) hne hentry hfresh
      rw [show lblock - 8 + 8 = lblock by omega] at hslot
      have hboth := hgrows.trans hentered
      refine ⟨hboth, fun b hb => ?_, fun e he => (by cases he), fun hfull => ?_⟩
      · cases hb
        have hnb := hfresh.low
        exact hboth.found hidx hslot (by omega)
      · rcases hbefore with ⟨-, rfl⟩ | ⟨-, hless⟩
        · omega
        · omega

theorem secondEntry_grows (hclean : ¬c) {buf : Mem} (hbuf : ∀ i, i < 512 → load16 buf (2 * i) = 0) {i j : Nat}
    (hi : i < 512) (hfresh : Fresh d nb) :
    let tbl := store16 buf (2 * j) nb
    let d' := writeBlock (Bitmap.set d (24576 + nb)) (load16 tbl (2 * i)) tbl
    Grows c idx d v d' v ∧ LostBlock d' (view d' idx v) nb := by
  have hlow := hfresh.low
  -- the entry read for the block to write is one of the empty ones, or the one just made
  have htarget : load16 (store16 buf (2 * j) nb) (2 * i) = 0 ∨
      load16 (store16 buf (2 * j) nb) (2 * i) = nb := by
    by_cases heq : i = j
    · right
      rw [heq, load16_store16 hfresh.high]
    · left
      rw [load16_store16_of_ne (by omega), hbuf i hi]
  have hbits : ∀ b, b < 65536 → blockBit (writeBlock (Bitmap.set d (24576 + nb))
      (load16 (store16 buf (2 * j) nb) (2 * i)) (store16 buf (2 * j) nb)) b =
      (decide (b = nb) || blockBit d b) :=
    bits_of_same fun k hk hk' => writeBlock_of_ne (by omega)
  obtain ⟨hgrows, hlost, -⟩ := Grows.leak h hidx hclean hfresh.low hfresh.high hfresh.free hbits
    fun k hk hk' hne => by rw [writeBlock_of_ne (by omega), hfresh.set_of_outside hk']
  exact ⟨hgrows, hlost⟩

theorem ensureSecond_grows {i1 : Nat} (hi1 : i1 < 512) (htable : v.doubleIndirect ≠ 0) {buf : Mem}
    (hrun : ensureSecond (layout total) d v.doubleIndirect.toNat i1 = some (buf, d')) :
    Grows c idx d v d' v ∧ (∀ i, i < 512 → load16 buf (2 * i) = 0) ∧ (d' = d ∨ 0 < freeCount total d) := by
  have htable' : v.doubleIndirect.toNat ≠ 0 := fun h0 => htable (toNat_eq_zero.mp h0)
  have hge : 54 ≤ v.doubleIndirect.toNat := ((h.placed hidx).used .double htable').1
  unfold ensureSecond at hrun
  by_cases hentry : load16 (readBlock d v.doubleIndirect.toNat) (2 * i1) = 0
  · rw [if_pos hentry] at hrun
    cases halloc : jexfsAllocBlock (layout total) d with
    | none =>
      rw [halloc] at hrun
      cases hrun
    | some p =>
      obtain ⟨nb, d₁⟩ := p
      obtain ⟨hfresh, rfl, hcount⟩ := allocBlock_fresh halloc
      rw [halloc] at hrun
      cases hrun
      have hlink := links_first (i := ⟨i1, hi1⟩) hfresh (h.placed hidx) htable' hentry
      rw [← readBlock_set hfresh hge, writeBlock_store16 (by omega)]
      exact ⟨Grows.link h hidx hlink, fun i _ => rfl, .inr (by omega)⟩
  · rw [if_neg hentry] at hrun
    cases hrun
    refine ⟨Grows.refl h, fun i hi => ?_, .inl rfl⟩
    have hsecond := h.second_empty idx hidx ⟨i1, hi1⟩ ⟨i, hi⟩
    rw [view_self] at hsecond
    rw [load16_readBlock] at hentry
    simp only [slotBlock, if_neg htable', if_neg hentry] at hsecond
    exact hsecond

theorem bmapAllocDouble_mapped (hlow : 520 ≤ lblock)
    (hrun : bmapAllocDouble (layout total) d v (lblock - 520) = (r, v', d')) :
    Mapped total idx lblock d v r v' d' := by
  have hclean : ¬lblock < 520 := by omega
  -- a call that fails: only the growth so far has to be shown
  have herror : ∀ {w : Inode} {e' : Mem} {e : Errno}, Grows (lblock < 520) idx d v e' w →
      (freeCount total d = 0 → w = v ∧ e' = d) →
      Mapped total idx lblock d v (.error e) w e' := fun hgrows hfull =>
    { grows := hgrows
      found := fun b hb => by cases hb
      failed := fun _ _ => .inr (.inl hlow)
      full := fun h0 => ⟨(hfull h0).1, (hfull h0).2, fun _ => ⟨_, rfl⟩⟩ }
  unfold bmapAllocDouble at hrun
  by_cases hi1 : 512 ≤ (lblock - 520) / 512
  · rw [if_pos hi1] at hrun
    cases hrun
    exact herror (Grows.refl h) fun _ => ⟨rfl, rfl⟩
  rw [if_neg hi1] at hrun
  cases hens : ensureTable (layout total) d v.doubleIndirect with
  | none =>
    rw [hens] at hrun
    cases hrun
    exact herror (Grows.refl h) fun _ => ⟨rfl, rfl⟩
  | some p =>
    obtain ⟨table, d₁⟩ := p
    rw [hens] at hrun
    dsimp only at hrun
    generalize hv₁ : { v with doubleIndirect := table } = v₁ at hrun
    have hfirst : Grows (lblock < 520) idx d v d₁ v₁ ∧ v₁.doubleIndirect = table ∧ table ≠ 0 ∧
        ((v₁ = v ∧ d₁ = d) ∨ 0 < freeCount total d) := by
      rcases ensureTable_cases hens with ⟨hne, rfl, rfl⟩ | ⟨h0, nb, hfresh, rfl, rfl, hcount⟩
      · subst hv₁
        exact ⟨Grows.refl h, rfl, hne, .inl ⟨rfl, rfl⟩⟩
      · have hnb := hfresh.low
        refine ⟨hv₁ ▸ Grows.link h hidx (links_double hfresh (h.placed hidx) h0), hv₁ ▸ rfl, ?_,
          .inr (by omega)⟩
        rw [Ne, ← toNat_eq_zero, toNat_ofNat hfresh.high]
        omega
    obtain ⟨hgrows, htable, hne, hbefore⟩ := hfirst
    subst htable
    have hidx₁ := (hgrows.live idx).mpr hidx
    cases hsecond : ensureSecond (layout total) d₁ v₁.doubleIndirect.toNat ((lblock - 520) / 512) with
    | none =>
      rw [hsecond] at hrun
      cases hrun
      exact herror hgrows fun hfull => hbefore.resolve_right (by omega)
    | some q =>
      obtain ⟨buf, d₂⟩ := q
      obtain ⟨hgrows₂, hbuf, hbefore₂⟩ := ensureSecond_grows (c := lblock < 520)
        hgrows.sound hidx₁ (by omega) hne hsecond
      rw [hsecond] at hrun
      dsimp only at hrun
      rw [if_pos (hbuf _ (Nat.mod_lt _ (by decide)))] at hrun
      have hboth := hgrows.trans hgrows₂
      have hfull₂ : freeCount total d = 0 → v₁ = v ∧ d₂ = d := by
        intro hfull
        obtain ⟨heq, rfl⟩ := hbefore.resolve_right (by omega)
        exact ⟨heq, hbefore₂.resolve_right (by omega)⟩
      cases halloc : jexfsAllocBlock (layout total) d₂ with
      | none =>
        rw [halloc] at hrun
        cases hrun
        exact herror hboth hfull₂
      | some q' =>
        obtain ⟨nb, d₃⟩ := q'
        obtain ⟨hfresh, rfl, hcount⟩ := allocBlock_fresh halloc
        rw [halloc] at hrun
        dsimp only at hrun
        rw [load16_store16 hfresh.high] at hrun
        cases hrun
        obtain ⟨hleak, hunheld⟩ := secondEntry_grows (i := (lblock - 520) / 512)
          (j := (lblock - 520) % 512) hgrows₂.sound
          ((hgrows₂.live idx).mpr hidx₁) hclean hbuf (by omega) hfresh
        refine ⟨hboth.trans hleak, fun b hb => ?_, fun e he => (by cases he), fun hfull => ?_⟩
        · cases hb
          have hnb := hfresh.low
          exact ⟨hnb, hfresh.high, fun i s hi heq => absurd ⟨hi, heq, by omega⟩ (hunheld.2 (i, s)),
            fun hlt => absurd hlt hclean⟩
        · obtain ⟨-, rfl⟩ := hfull₂ hfull
          omega

theorem bmapAlloc_mapped (hrun : jexfsBmapAlloc (layout total) d v lblock = (r, v', d')) :
    Mapped total idx lblock d v r v' d' := by
  have hsecond : ∀ i j, slotBlock d v (.second i j) = 0 := by
    intro i j
    have hempty := h.second_empty idx hidx i j
    rwa [view_self] at hempty
  unfold jexfsBmapAlloc at hrun
  by_cases hexist : jexfsBmap d v lblock = 0
  · rw [if_neg (by simpa using hexist)] at hrun
    by_cases hdirect : lblock < 8
    · rw [dif_pos hdirect] at hrun
      exact bmapAllocDirect_mapped h hidx hdirect hexist hrun
    · rw [dif_neg hdirect] at hrun
      by_cases hindirect : lblock - 8 < 512
      · rw [if_pos hindirect] at hrun
        exact bmapAllocIndirect_mapped h hidx (by omega) (by omega) hexist hrun
      · rw [if_neg hindirect] at hrun
        exact bmapAllocDouble_mapped h hidx (by omega) hrun
  · rw [if_pos hexist] at hrun
    cases hrun
    have hlt : lblock < 520 := by
      by_contra hge
      exact hexist (bmap_eq_zero (by omega) hsecond)
    refine ⟨Grows.refl h, fun b hb => ?_, fun e he => (by cases he), fun _ =>
      ⟨rfl, rfl, fun h0 => absurd h0 hexist⟩⟩
    cases hb
    rw [bmap_eq hlt] at hexist ⊢
    exact (Grows.refl (c := lblock < 520) h).found hidx rfl hexist

end Mapped

end JexOs.JexFs
