import JexOs.Proof.Editor
import Mathlib.Data.List.Infix

/-!
# The position of the cursor

A position is known by what is in front of it. `get_buffer_pos` counts rows, of which a line of 76 characters
or more has several, and the helpers of the cursor count lines.
-/

namespace JexOs.Editor

open List Option

def wrapWidth : Nat := editorWidth - 4

def column (p : List UInt8) : Nat := p.foldl (fun x c => if c = newline then 0 else x + 1) 0

def cell (p : List UInt8) : Nat × Nat := p.foldl (fun xy c => nextCell c xy.1 xy.2) (0, 0)

def Short (p : List UInt8) : Prop := ∀ q, q <+: p → column q < wrapWidth

section Rows

variable {p q first front rest bytes : List UInt8} {c : UInt8} {k : Nat}

theorem column_snoc (p : List UInt8) (c : UInt8) : column (p ++ [c]) = if c = newline then 0
      else column p + 1 := by
  rw [column, foldl_append]
  rfl

theorem cell_snoc (p : List UInt8) (c : UInt8) : cell (p ++ [c]) = nextCell c (cell p).1 (cell p).2 := by
  rw [cell, foldl_append]
  rfl

theorem count_snoc (p : List UInt8) (c : UInt8) :
    (p ++ [c]).count newline = if c = newline then p.count newline + 1 else p.count newline := by
  rw [count_append, count_singleton]
  by_cases hc : c = newline
  · rw [if_pos hc, if_pos (beq_iff_eq.mpr hc)]
  · rw [if_neg hc, if_neg (mt beq_iff_eq.mp hc), Nat.add_zero]

theorem Short.mono (h : Short p) (hq : q <+: p) : Short q := fun r hr => h r (hr.trans hq)

theorem short_snoc (h : Short p) (hc : column (p ++ [c]) < wrapWidth) : Short (p ++ [c]) := by
  intro q hq
  rcases prefix_concat_iff.mp hq with rfl | hq
  · exact hc
  · exact h q hq

theorem cell_of_short (h : Short p) : cell p = (column p, p.count newline) := by
  induction p using List.reverseRecOn with
  | nil => rfl
  | append_singleton p c ih =>
    have hlast := h _ (prefix_refl _)
    rw [column_snoc] at hlast
    rw [cell_snoc, ih (h.mono (List.prefix_append _ _)), column_snoc, count_snoc, nextCell]
    by_cases hc : c = newline
    · simp only [if_pos hc]
    · rw [if_neg hc] at hlast
      have hfit : ¬ column p + 1 ≥ editorWidth - 4 := not_le.mpr hlast
      simp only [if_neg hc, if_neg hfit]

theorem count_lt_cell (h : ¬ Short p) : p.count newline < (cell p).2 := by
  induction p using List.reverseRecOn with
  | nil =>
    refine absurd (fun q hq => ?_) h
    rw [prefix_nil.mp hq]
    decide
  | append_singleton p c ih =>
    rw [cell_snoc, count_snoc, nextCell]
    by_cases hp : Short p
    · have hlong : ¬ column (p ++ [c]) < wrapWidth := fun hc => h (short_snoc hp hc)
      rw [column_snoc] at hlong
      rw [cell_of_short hp]
      by_cases hc : c = newline
      · rw [if_pos hc] at hlong
        exact absurd (by decide) hlong
      · rw [if_neg hc] at hlong
        have hwrap : column p + 1 ≥ editorWidth - 4 := not_lt.mp hlong
        simp only [if_neg hc, if_pos hwrap]
        exact Nat.lt_succ_self _
    · have hlt := ih hp
      split
      · exact Nat.succ_lt_succ hlt
      · split
        · exact Nat.lt_succ_of_lt hlt
        · exact hlt

theorem count_le (h : p <+: q) : p.count newline ≤ q.count newline := h.sublist.count_le _

theorem column_eq (h : p <+: q) (hcount : p.count newline = q.count newline) :
    column q + p.length = column p + q.length := by
  induction q using List.reverseRecOn with
  | nil => rw [prefix_nil.mp h]
  | append_singleton q c ih =>
    rcases prefix_concat_iff.mp h with rfl | hq
    · rfl
    · have hle := count_le hq
      rw [count_snoc] at hcount
      by_cases hc : c = newline
      · rw [if_pos hc] at hcount
        omega
      · rw [if_neg hc] at hcount
        have hcolumn := ih hq hcount
        rw [column_snoc, if_neg hc, length_append, length_singleton]
        omega

theorem eq_of_column (h : p <+: q) (hcount : p.count newline = q.count newline)
    (hcolumn : column p = column q) :
    p = q := by
  have hlength := column_eq h hcount
  exact h.eq_of_length (by omega)

theorem posLoop_cons (x y : Int) (front rest : List UInt8) (c : UInt8) :
    posLoop x y (c :: rest) front.length (cell front).1 (cell front).2 =
      if (cell front).2 = y ∧ (cell front).1 = x then some front.length
      else if (cell (front ++ [c])).2 > y then some front.length
      else posLoop x y rest (front ++ [c]).length (cell (front ++ [c])).1 (cell (front ++ [c])).2 := by
  rw [cell_snoc, length_append]
  rfl

theorem append_cons_eq (front rest : List UInt8)
    (c : UInt8) : front ++ c :: rest = (front ++ [c]) ++ rest := by
  rw [append_assoc]
  rfl

theorem prefix_next (hq : q <+: front ++ c :: rest) (hfront : front <+: q)
    (hne : front ≠ q) : front ++ [c] <+: q := by
  rw [append_cons_eq] at hq
  refine prefix_of_prefix_length_le (List.prefix_append _ _) hq ?_
  rw [length_append]
  exact Nat.lt_of_le_of_ne hfront.length_le fun hlength => hne (hfront.eq_of_length hlength)

theorem posLoop_short (hq : q <+: front ++ rest) (hfront : front <+: q) (h : Short q) :
    (posLoop (column q) (q.count newline) rest front.length (cell front).1 (cell front).2).getD
      (front ++ rest).length = q.length := by
  induction rest generalizing front with
  | nil =>
    rw [append_nil] at hq ⊢
    exact hfront.length_le.antisymm hq.length_le
  | cons c rest ih =>
    rw [posLoop_cons]
    have hcell := cell_of_short (h.mono hfront)
    by_cases heq : front = q
    · rw [← heq, hcell, if_pos ⟨rfl, rfl⟩]
      rfl
    · have hnext := prefix_next hq hfront heq
      have hrow : ¬ ((cell (front ++ [c])).2 : Int) > q.count newline := by
        have hrows := count_le hnext
        rw [cell_of_short (h.mono hnext)]
        omega
      have hother : ¬ ((cell front).2 = (q.count newline : Int) ∧ (cell front).1 = (column q : Int)) := by
        rw [hcell]
        rintro ⟨hrow, hcolumn⟩
        exact heq (eq_of_column hfront (Int.ofNat_inj.mp hrow) (Int.ofNat_inj.mp hcolumn))
      rw [if_neg hother, if_neg hrow, append_cons_eq front rest c]
      exact ih (append_cons_eq front rest c ▸ hq) hnext

theorem posLoop_long (x : Int) (hq : q <+: front ++ rest) (hfront : front <+: q) (h : ¬ Short q)
    (hrow : (cell front).2 ≤ q.count newline) :
    ∃ j < q.length, posLoop x (q.count newline) rest front.length (cell front).1 (cell front).2 = some j := by
  have hne : front ≠ q := by
    rintro rfl
    exact absurd (count_lt_cell h) (not_lt.mpr hrow)
  have hlt : front.length < q.length :=
    Nat.lt_of_le_of_ne hfront.length_le fun hlength => hne (hfront.eq_of_length hlength)
  induction rest generalizing front with
  | nil =>
    rw [append_nil] at hq
    exact absurd hq.length_le (not_le.mpr hlt)
  | cons c rest ih =>
    rw [posLoop_cons]
    split
    · exact ⟨_, hlt, rfl⟩
    · split
      · exact ⟨_, hlt, rfl⟩
      · have hnext := prefix_next hq hfront hne
        have hrow' : (cell (front ++ [c])).2 ≤ q.count newline := by omega
        have hne' : front ++ [c] ≠ q := by
          rintro rfl
          exact absurd (count_lt_cell h) (not_lt.mpr hrow')
        exact ih (append_cons_eq front rest c ▸ hq) hnext hrow' hne'
          (Nat.lt_of_le_of_ne hnext.length_le fun hlength => hne' (hnext.eq_of_length hlength))

theorem posLoop_iff (hq : q <+: bytes) :
    (posLoop (column q) (q.count newline) bytes 0 0 0).getD bytes.length = q.length ↔ Short q := by
  constructor
  · intro hpos
    by_contra h
    obtain ⟨j, hj, hloop⟩ := @posLoop_long q [] bytes (column q) hq nil_prefix h (Nat.zero_le _)
    rw [show posLoop (column q) (q.count newline) bytes 0 0 0 = some j from hloop] at hpos
    exact absurd hpos hj.ne
  · exact fun h => @posLoop_short q [] bytes hq nil_prefix h

structure LineAt (bytes : List UInt8) (k : Nat) (first last : List UInt8) : Prop where
  ordered : first <+: last
  inside : last <+: bytes
  start : column first = 0
  count : ∀ p, p <+: bytes → (p.count newline = k ↔ first <+: p ∧ p <+: last)

theorem startLoop_spec (hlow : front.count newline ≤ k) (hcolumn : front.count newline = k → column front = 0)
    (hhigh : k ≤ (front ++ rest).count newline) :
    ∃ first, (startLoop k rest front.length (front.count newline)).getD (front ++ rest).length = first.length ∧
      first <+: front ++ rest ∧ first.count newline = k ∧ column first = 0 := by
  induction rest generalizing front with
  | nil =>
    rw [append_nil] at hhigh ⊢
    have heq := hlow.antisymm hhigh
    exact ⟨front, rfl, prefix_refl _, heq, hcolumn heq⟩
  | cons c rest ih =>
    unfold startLoop
    by_cases heq : front.count newline = k
    · rw [if_pos (congrArg Nat.cast heq)]
      exact ⟨front, rfl, List.prefix_append _ _, heq, hcolumn heq⟩
    · rw [if_neg fun h => heq (Int.ofNat_inj.mp h), append_cons_eq, ← count_snoc]
      have hrest := @ih (front ++ [c]) (by rw [count_snoc]; split <;> omega) (fun hk => ?_)
        (append_cons_eq front rest c ▸ hhigh)
      · rwa [length_append] at hrest
      · rw [count_snoc] at hk
        rw [column_snoc]
        split at hk
        · rename_i hc
          exact if_pos hc
        · exact absurd hk heq

theorem endLoop_spec (hlow : front.count newline ≤ k) (hhigh : k ≤ (front ++ rest).count newline) :
    ∃ last, (endLoop k rest front.length (front.count newline)).getD (front ++ rest).length = last.length ∧
      last <+: front ++ rest ∧ last.count newline = k ∧
      (last = front ++ rest ∨ last ++ [newline] <+: front ++ rest) := by
  induction rest generalizing front with
  | nil =>
    rw [append_nil] at hhigh ⊢
    exact ⟨front, rfl, prefix_refl _, hlow.antisymm hhigh, .inl rfl⟩
  | cons c rest ih =>
    unfold endLoop
    rw [append_cons_eq]
    by_cases hend : front.count newline = k ∧ c = newline
    · obtain ⟨heq, rfl⟩ := hend
      rw [if_pos ⟨congrArg Nat.cast heq, rfl⟩]
      exact ⟨front, rfl, (List.prefix_append _ _).trans (List.prefix_append _ _), heq,
        .inr (List.prefix_append _ _)⟩
    · rw [if_neg fun h => hend ⟨Int.ofNat_inj.mp h.1, h.2⟩, ← count_snoc]
      have hrest := @ih (front ++ [c]) ?_ (append_cons_eq front rest c ▸ hhigh)
      · rwa [length_append] at hrest
      · rw [count_snoc]
        split
        · rename_i hc
          exact Nat.lt_of_le_of_ne hlow fun heq => hend ⟨heq, hc⟩
        · exact hlow

theorem first_le (hfirst : first <+: bytes) (hp : p <+: bytes) (hstart : column first = 0)
    (hcount : p.count newline = first.count newline) : first <+: p := by
  by_contra hnot
  have hlt : p.length < first.length := Nat.lt_of_not_le fun hle =>
    hnot (prefix_of_prefix_length_le hfirst hp hle)
  have hpre := prefix_of_prefix_length_le hp hfirst hlt.le
  have hcolumn := column_eq hpre hcount
  omega

theorem lineAt (hk : k ≤ bytes.count newline) :
    ∃ first last, (startLoop k bytes 0 0).getD bytes.length = first.length ∧
    (endLoop k bytes 0 0).getD bytes.length = last.length ∧ LineAt bytes k first last := by
  obtain ⟨first, hfirst, hbefore, hcount, hstart⟩ :=
    @startLoop_spec [] bytes k (Nat.zero_le _) (fun _ => rfl) hk
  obtain ⟨last, hlast, hinside, hcount', hend⟩ := @endLoop_spec [] bytes k (Nat.zero_le _) hk
  refine ⟨first, last, hfirst, hlast,
    { ordered := first_le hbefore hinside hstart (hcount'.trans hcount.symm)
      inside := hinside
      start := hstart
      count := fun p hp => ⟨fun hpk => ⟨first_le hbefore hp hstart (hpk.trans hcount.symm), ?_⟩, ?_⟩ }⟩
  · by_contra hnot
    have hlt : last.length < p.length :=
      Nat.lt_of_not_le fun hle => hnot (prefix_of_prefix_length_le hp hinside hle)
    rcases hend with rfl | hend
    · exact absurd hp.length_le (not_le.mpr hlt)
    · have hmore : last ++ [newline] <+: p := by
        refine prefix_of_prefix_length_le hend hp ?_
        rw [length_append]
        exact hlt
      have hle := count_le hmore
      rw [count_snoc, if_pos rfl] at hle
      omega
  · rintro ⟨hlow, hhigh⟩
    have hle := count_le hlow
    have hle' := count_le hhigh
    omega

theorem LineAt.column (h : LineAt bytes k first last) (hp : p <+: bytes) (hcount : p.count newline = k) :
    column p = p.length - first.length ∧ first.length ≤ p.length ∧ p.length ≤ last.length := by
  obtain ⟨hlow, hhigh⟩ := (h.count p hp).mp hcount
  have hfirst := (h.count first (h.ordered.trans h.inside)).mpr ⟨prefix_refl _, h.ordered⟩
  have hcolumn := column_eq hlow (hfirst.trans hcount.symm)
  rw [h.start] at hcolumn
  exact ⟨by omega, hlow.length_le, hhigh.length_le⟩

theorem LineAt.take (h : LineAt bytes k first last) {x : Nat} (hx : first.length + x ≤ last.length) :
    ∃ q, q <+: bytes ∧ q.length = first.length + x ∧ q.count newline = k ∧ Editor.column q = x := by
  have hlast := h.inside.length_le
  have hleading := take_prefix (first.length + x) bytes
  have hlength : (bytes.take (first.length + x)).length = first.length + x := by
    rw [length_take]
    omega
  have hcount := (h.count _ hleading).mpr
    ⟨prefix_of_prefix_length_le (h.ordered.trans h.inside) hleading (by omega),
      prefix_of_prefix_length_le hleading h.inside (by omega)⟩
  have hcolumn := (h.column hleading hcount).1
  exact ⟨_, hleading, hlength, hcount, by omega⟩

end Rows

/-- The keys that edit act at a position. -/
structure ActsAt (s : EditorState) (p : Int) : Prop where
  typing : ∀ key answers, ∃ s', printable key answers s =
    some (s', [{ pos := p, length := s.length }])
  erasing : ∀ answers, 0 < p → ∃ s', backspace answers s =
    some (s', [{ pos := p - 1, length := s.length }])
  breaking : ∀ answers, ∃ s' uses, enter answers s =
    some (s', { pos := p, length := s.length } :: uses)

section Cursor

variable {s : EditorState} {line : Int32}

section

variable (hlength : 0 ≤ s.length)

include hlength

theorem orLength_eq (found : Option Nat) : orLength s found = found.getD (text s).length := by
  cases found with
  | none =>
    rw [text_length]
    exact (Int.toNat_of_nonneg hlength).symm
  | some i => rfl

theorem saveUndoSnapshot_undo (grant : Option Block) :
    ∃ undo, saveUndoSnapshot grant s = some { s with undo := undo } := by
  unfold saveUndoSnapshot
  split
  · cases grant with
    | none => exact ⟨s.undo, rfl⟩
    | some block =>
      dsimp only
      rw [if_neg (Int.not_lt.mpr hlength)]
      exact ⟨_, rfl⟩
  · exact ⟨s.undo, rfl⟩

theorem actsAt_getBufferPos (hplace : 0 < getBufferPos s → s.cursorX > 0 ∨ s.cursorY > 0) :
    ActsAt s (getBufferPos s) := by
  refine
    { typing := fun key answers => ?_
      erasing := fun answers hpos => ?_
      breaking := fun answers => ?_ }
  all_goals obtain ⟨undo, hsave⟩ := saveUndoSnapshot_undo hlength answers.grant
  · unfold printable
    rw [hsave]
    exact ⟨_, rfl⟩
  · unfold backspace
    rw [hsave, bind_eq_bind, bind_some]
    have hpos' : getBufferPos { s with undo := undo } > 0 := hpos
    rw [if_pos hpos']
    by_cases hx : s.cursorX > 0
    · rw [if_pos hx]
      exact ⟨_, rfl⟩
    · rw [if_neg hx, if_pos ((hplace hpos).resolve_left hx)]
      exact ⟨_, rfl⟩
  · unfold enter
    rw [hsave]
    exact ⟨_, _, rfl⟩

omit hlength in
theorem toInt_countLines (hbound : s.length < maxFileSize) :
    (countLines s).toInt = 1 + (text s).count newline := by
  have hcount := (text s).count_le_length (a := newline)
  have hsize : maxFileSize = 32768 := rfl
  rw [text_length] at hcount
  unfold countLines
  rw [Int32.toInt_ofNat_of_lt (by omega)]
  omega

theorem lineAt_line (hbound : s.length < maxFileSize) (hline : 0 ≤ line) (hlines : line < countLines s) :
    ∃ (k : Nat) (first last : List UInt8), line.toInt = k ∧ LineAt (text s) k first last ∧
    lineStart s line = first.length ∧
      (lineLength s line).toInt = last.length - first.length := by
  have hcount := toInt_countLines hbound
  have hsize : maxFileSize = 32768 := rfl
  rw [Int32.le_iff_toInt_le, Int32.toInt_zero] at hline
  rw [Int32.lt_iff_toInt_lt, hcount] at hlines
  obtain ⟨k, hk⟩ := Int.eq_ofNat_of_zero_le hline
  obtain ⟨first, last, hfirst, hlast, hat⟩ := @lineAt (text s) k (by omega)
  have hordered := hat.ordered.length_le
  have hinside := hat.inside.length_le
  rw [text_length] at hinside
  have hstart : lineStart s line = first.length := by
    rw [lineStart, orLength_eq hlength, hk]
    exact congrArg Nat.cast hfirst
  have hend : lineEnd s line = last.length := by
    rw [lineEnd, orLength_eq hlength, hk]
    exact congrArg Nat.cast hlast
  refine ⟨k, first, last, hk, hat, hstart, ?_⟩
  rw [lineLength, hstart, hend, Int32.toInt_ofInt_of_le (by omega) (by omega)]

theorem short_iff {k x : Nat} {first last q : List UInt8} (hbound : s.length < maxFileSize)
    (hlines : s.cursorY < countLines s) (hk : s.cursorY.toInt = k) (hx : s.cursorX.toInt = x)
    (hat : LineAt (text s) k first last) (hq : q <+: text s) (hcount : q.count newline = k)
    (hcolumn : column q = x) :
    Short q ↔ (∀ line, 0 ≤ line → line < s.cursorY → lineLength s line < 76) ∧ s.cursorX < 76 := by
  have hwidth : wrapWidth = 76 := rfl
  have h76 : (76 : Int32).toInt = 76 := rfl
  rw [Int32.lt_iff_toInt_lt, hx, h76]
  constructor
  · intro h
    refine ⟨fun line hline hbefore => ?_, ?_⟩
    · obtain ⟨k', first', last', hk', hat', -, hlen⟩ :=
        lineAt_line hlength hbound hline (Int32.lt_trans hbefore hlines)
      rw [Int32.lt_iff_toInt_lt, hk, hk'] at hbefore
      have hcount' := (hat'.count last' hat'.inside).mpr ⟨hat'.ordered, prefix_refl _⟩
      have hleading : last' <+: q := by
        refine prefix_of_prefix_length_le hat'.inside hq (Nat.le_of_not_lt fun hlt => ?_)
        have hle := count_le (prefix_of_prefix_length_le hq hat'.inside hlt.le)
        omega
      have hshort := h last' hleading
      have hlast := hat'.column hat'.inside hcount'
      rw [Int32.lt_iff_toInt_lt, hlen, h76]
      omega
    · have hshort := h q (prefix_refl q)
      omega
  · rintro ⟨hbefore, hcursor⟩ p hp
    have hle := count_le hp
    have htext := hp.trans hq
    have hlong := hp.length_le
    by_cases hsame : p.count newline = k
    · have hp' := hat.column htext hsame
      have hq' := hat.column hq hcount
      omega
    · have hlines' : (p.count newline : Int) < k := by omega
      have hlarge := Int32.toInt_lt s.cursorY
      obtain ⟨line, hline⟩ : ∃ line : Int32, line.toInt = p.count newline :=
        ⟨_, Int32.toInt_ofNat_of_lt (by omega)⟩
      have hline0 : 0 ≤ line := by
        rw [Int32.le_iff_toInt_le, hline, Int32.toInt_zero]
        exact Int.natCast_nonneg _
      have hlinelt : line < s.cursorY := by
        rw [Int32.lt_iff_toInt_lt, hline, hk]
        exact hlines'
      obtain ⟨k', first', last', hk', hat', -, hlen⟩ :=
        lineAt_line hlength hbound hline0 (Int32.lt_trans hlinelt hlines)
      have hlast := hat'.column htext (Int.ofNat_inj.mp (hline.symm.trans hk'))
      have hshort := hbefore line hline0 hlinelt
      rw [Int32.lt_iff_toInt_lt, hlen, h76] at hshort
      omega

/-- **The cursor and the text.** The position is in the line of the cursor, and the keys act there, if and only if
nothing reaches the width at which rows wrap. -/
theorem getBufferPos_iff (hbound : s.length < maxFileSize) (hy : 0 ≤ s.cursorY)
    (hlines : s.cursorY < countLines s) (hx : 0 ≤ s.cursorX) (hline : s.cursorX ≤ lineLength s s.cursorY) :
    (getBufferPos s = lineStart s s.cursorY + s.cursorX.toInt ∧
      ActsAt s (lineStart s s.cursorY + s.cursorX.toInt)) ↔
      (∀ line, 0 ≤ line → line < s.cursorY → lineLength s line < 76) ∧ s.cursorX < 76 := by
  obtain ⟨k, first, last, hk, hat, hstart, hlen⟩ := lineAt_line hlength hbound hy hlines
  rw [Int32.le_iff_toInt_le, Int32.toInt_zero] at hx
  rw [Int32.le_iff_toInt_le, hlen] at hline
  obtain ⟨x, hx'⟩ := Int.eq_ofNat_of_zero_le hx
  obtain ⟨q, hq, hqlength, hcount, hcolumn⟩ := @LineAt.take _ _ _ _ hat x (by omega)
  rw [← short_iff hlength hbound hlines hk hx' hat hq hcount hcolumn, ← posLoop_iff hq, hcolumn,
    hcount, hqlength]
  have hpos : getBufferPos s = (posLoop x k (text s) 0 0 0).getD (text s).length := by
    rw [getBufferPos, orLength_eq hlength, hk, hx']
  rw [hpos, hstart, hx']
  refine ⟨fun h => Int.ofNat_inj.mp h.1, fun h => ⟨congrArg Nat.cast h, ?_⟩⟩
  have hcast : ((first.length : Int) + x) = getBufferPos s := by
    rw [hpos, h]
    rfl
  rw [hcast]
  refine actsAt_getBufferPos hlength fun hplace => ?_
  rw [gt_iff_lt, gt_iff_lt, Int32.lt_iff_toInt_lt, Int32.lt_iff_toInt_lt, hx', hk, Int32.toInt_zero]
  by_contra hzero
  have hk0 : k = 0 := by omega
  have hnil := ((hat.count [] nil_prefix).mp hk0.symm).1.length_le
  rw [length_nil] at hnil
  omega

end

def twoLines (width : Nat) : EditorState :=
  { fresh (bytesAt (List.replicate width 97 ++ [newline, 98])) with
    length := width + 2
    cursorY := 1 }

theorem getBufferPos_iff_short :
    getBufferPos (twoLines 1) = lineStart (twoLines 1) 1 + 0 ∧
    ActsAt (twoLines 1) (lineStart (twoLines 1) 1 + 0) :=
  (@getBufferPos_iff (twoLines 1) (by decide) (by decide) (by decide) (by decide) (by decide) (by decide)).mpr
    ⟨fun line hline hbefore => by
      rw [Int32.lt_iff_toInt_lt] at hbefore
      rw [Int32.le_iff_toInt_le] at hline
      have hzero : line = 0 := Int32.toInt.inj (Int.le_antisymm (Int.le_of_lt_add_one hbefore) hline)
      rw [hzero]
      decide, by decide⟩

theorem getBufferPos_shifted : ¬ ∀ s : EditorState, 0 ≤ s.length → s.length < maxFileSize → 0 ≤ s.cursorY →
    s.cursorY < countLines s → 0 ≤ s.cursorX → s.cursorX ≤ lineLength s s.cursorY →
    getBufferPos s = lineStart s s.cursorY + s.cursorX.toInt := fun h =>
  absurd (h (twoLines 76) (by decide) (by decide) (by decide) (by decide) (by decide) (by decide)) (by decide)

end Cursor

end JexOs.Editor
