import JexOs.ShellLine
import Mathlib.Data.List.TakeWhile

/-!
# The line editor is a list with a cursor

The terminator moves with every key, so a row of the history always has one too, and a recalled line is
edited like one that was typed.
-/

namespace JexOs.Shell

open List Function

/-- A line of at most 255 characters with a cursor in it. -/
structure Line where
  text : List UInt8
  cursor : Nat
  length_le : text.length ≤ 255
  cursor_le : cursor ≤ text.length

/-- A line that can be recalled. -/
abbrev Command := { t : List UInt8 // t.length ≤ 255 ∧ 0 ∉ t }

/-- The line, the last commands, and the one that has been recalled. -/
structure LineEditor where
  line : Line
  past : List Command
  place : Nat
  past_le : past.length ≤ histSize
  place_le : place ≤ past.length

inductive Key where
  | redraw
  | enter
  | left
  | right
  | up
  | down
  | backspace
  | char (c : UInt8)

def keyOf (key : ShellKey) : Key :=
  if key.val = 0x0C then .redraw
  else if key.val = 0x0A then .enter
  else if key.val = 0x82 then .left
  else if key.val = 0x83 then .right
  else if key.val = 0x80 then .up
  else if key.val = 0x81 then .down
  else if key.val = 0x08 then .backspace
  else .char key.val

/-- The characters in front of the first NUL. -/
def commandOf (t : List UInt8) (h : t.length ≤ 255) : Command :=
  ⟨t.takeWhile (· != 0), Nat.le_trans ( takeWhile_prefix _).length_le h, fun hmem =>
    absurd (mem_takeWhile_imp hmem) (by decide)⟩

namespace Line

def empty : Line :=
  { text := []
    cursor := 0
    length_le := Nat.zero_le _
    cursor_le := Nat.le_refl _ }

def recalled (c : Command) : Line :=
  { text := c.val
    cursor := c.val.length
    length_le := c.property.1
    cursor_le := Nat.le_refl _ }

def left (l : Line) : Line :=
  { l with
    cursor := l.cursor - 1
    cursor_le := (Nat.sub_le _ _).trans l.cursor_le }

def right (l : Line) : Line :=
  { l with
    cursor := min (l.cursor + 1) l.text.length
    cursor_le := Nat.min_le_right _ _ }

def backspace (l : Line) : Line :=
  if h : 0 < l.cursor then
    { text := l.text.eraseIdx (l.cursor - 1)
      cursor := l.cursor - 1
      length_le := (length_eraseIdx_le _ _).trans l.length_le
      cursor_le := by
        rw [length_eraseIdx_of_lt (by have := l.cursor_le; omega)]
        exact Nat.sub_le_sub_right l.cursor_le 1 }
  else l

def insert (c : UInt8) (l : Line) : Line :=
  if h : l.text.length < 255 then
    { text := l.text.insertIdx l.cursor c
      cursor := l.cursor + 1
      length_le := by
        rw [length_insertIdx_of_le_length l.cursor_le]
        exact h
      cursor_le := by
        rw [length_insertIdx_of_le_length l.cursor_le]
        exact Nat.succ_le_succ l.cursor_le }
  else l

end Line

namespace LineEditor

/-- The oldest command makes room. -/
def remember (c : Command) (e : LineEditor) : LineEditor :=
  { e with
    past := (e.past ++ [c]).drop (e.past.length + 1 - histSize)
    past_le := by
      rw [length_drop, length_append, length_singleton]
      omega
    place_le := by
      have hpast := e.past_le
      have hplace := e.place_le
      have hsize : histSize = 16 := rfl
      rw [length_drop, length_append, length_singleton]
      omega }

def last (e : LineEditor) : LineEditor :=
  { e with
    place := e.past.length
    place_le := Nat.le_refl _ }

def recalled (e : LineEditor) (place : Nat) (h : place < e.past.length) : LineEditor :=
  { e with
    line := Line.recalled e.past[place]
    place := place
    place_le := Nat.le_of_lt h }

def enter (e : LineEditor) : LineEditor :=
  let c := commandOf e.line.text e.line.length_le
  let e := if c.val = [] then e else (e.remember c).last
  { e with line := Line.empty }

def press (e : LineEditor) : Key → LineEditor
  | .redraw => e
  | .enter => e.enter
  | .left => { e with line := e.line.left }
  | .right => { e with line := e.line.right }
  | .up =>
    if h : 0 < e.place then e.recalled (e.place - 1) (by have := e.place_le; omega) else e
  | .down =>
    if h : e.place + 1 < e.past.length then e.recalled (e.place + 1) h
    else if e.place < e.past.length then { e.last with line := Line.empty }
    else e
  | .backspace => { e with line := e.line.backspace }
  | .char c => { e with line := e.line.insert c }

def boot : LineEditor :=
  { line := Line.empty
    past := []
    place := 0
    past_le := Nat.zero_le _
    place_le := Nat.le_refl _ }

/-- The history of the file. -/
def load (rows : List Chars) (e : LineEditor) : LineEditor :=
  ((rows.take histSize).foldl (fun e buf =>
    e.remember (commandOf (Shift.listed buf 255) (Shift.length_listed.le))) e).last

end LineEditor

/-- The text and its terminator are in the row. -/
def Holds (m : Chars) (t : List UInt8) : Prop := Shift.listed m t.length = t ∧ m t.length = 0

section Rows

variable {src dst m : Chars} {t : List UInt8} {i j n : Nat}

theorem copyChars_eq (hij : i ≤ j) (hjn : j ≤ i + n) (hchars : ∀ k, i ≤ k → k < j → src k ≠ 0)
    (hend : src j = 0) :
    (copyChars src n i dst).2 = j ∧ (copyChars src n i dst).1 j = 0 ∧
      ∀ k < j, (copyChars src n i dst).1 k = if k < i then dst k else src k := by
  induction n generalizing i dst with
  | zero =>
    cases hij.antisymm hjn
    exact ⟨rfl, update_self .., fun k hk => by
      rw [if_pos hk]
      exact update_of_ne hk.ne _ _⟩
  | succ n ih =>
    rw [copyChars]
    split
    · rename_i hzero
      have heq : i = j := hij.antisymm (Nat.le_of_not_lt fun hlt => hchars i le_rfl hlt hzero)
      subst heq
      exact ⟨rfl, update_self .., fun k hk => by
        rw [if_pos hk]
        exact update_of_ne hk.ne _ _⟩
    · rename_i hchar
      have hlt : i < j := Nat.lt_of_le_of_ne hij fun heq => hchar (heq ▸ hend)
      obtain ⟨hlast, hzero, hcopied⟩ :=
        @ih (Function.update dst i (src i)) (i + 1) hlt (by omega) fun k hk => hchars k (by omega)
      refine ⟨hlast, hzero, fun k hk => ?_⟩
      rw [hcopied k hk]
      rcases lt_trichotomy k i with hki | rfl | hki
      · rw [if_pos (by omega), if_pos hki, update_of_ne hki.ne]
      · rw [if_pos (Nat.lt_succ_self k), if_neg (lt_irrefl k), update_self]
      · rw [if_neg (by omega), if_neg (by omega)]

theorem Holds.apply (h : Holds m t) (hj : j < t.length) : t[j]? = some (m j) := by
  rw [← h.1, Shift.listed_getElem?, if_pos hj]

theorem Holds.copy (h : Holds src t) (hmem : 0 ∉ t) (hle : t.length ≤ 255) :
    (copyChars src 255 0 dst).2 = t.length ∧ Holds (copyChars src 255 0 dst).1 t := by
  have hend : t.length ≤ 0 + 255 := by rwa [Nat.zero_add]
  obtain ⟨hlast, hzero, hcopied⟩ := @copyChars_eq src dst 0 t.length 255 (Nat.zero_le _) hend
    (fun k _ hk heq => hmem (heq ▸ mem_of_getElem? (h.apply hk))) h.2
  refine ⟨hlast, ?_, hzero⟩
  exact (Shift.listed_congr fun k hk => (hcopied k hk).trans (if_neg (Nat.not_lt_zero k))).trans h.1

theorem Holds.front {front rest : List UInt8} (h : Holds m (front ++ rest)) :
    Shift.listed m front.length = front := by
  have htake := congrArg (List.take front.length) h.1
  rwa [Shift.take_listed, length_append, Nat.min_eq_left (Nat.le_add_right _ _), take_left] at htake

theorem Holds.command (h : Holds m t) : Holds m (t.takeWhile (· != 0)) := by
  have hsplit := @takeWhile_append_dropWhile _ (· != (0 : UInt8)) t
  generalize t.takeWhile (· != 0) = front at hsplit ⊢
  cases hrest : t.dropWhile (· != 0) with
  | nil =>
    rw [hrest, append_nil] at hsplit
    exact hsplit ▸ h
  | cons c rest =>
    have hzero := head_dropWhile_not (· != (0 : UInt8)) (hrest ▸ cons_ne_nil c rest)
    simp only [hrest, head_cons, bne_eq_false_iff_eq] at hzero
    rw [hrest] at hsplit
    subst hsplit
    have hlt : front.length < (front ++ c :: rest).length := by
      rw [length_append, length_cons]
      omega
    have hget := h.apply hlt
    rw [getElem?_append_right le_rfl, Nat.sub_self] at hget
    exact ⟨h.front, (Option.some.inj hget).symm.trans hzero⟩

theorem Holds.nil_iff (h : Holds m t) : t.takeWhile (· != 0) = [] ↔ m 0 = 0 := by
  cases t with
  | nil => exact iff_of_true rfl h.2
  | cons c t =>
    have hfirst : c = m 0 := Option.some.inj (h.apply (Nat.zero_lt_succ _))
    rw [← hfirst, takeWhile_cons]
    by_cases hc : c = 0
    · rw [if_neg (by simp [hc])]
      exact iff_of_true rfl hc
    · rw [if_pos (by simp [hc])]
      exact iff_of_false (cons_ne_nil _ _) hc

theorem holds_empty (h : m 0 = 0) : Holds m [] := ⟨rfl, h⟩

end Rows

section History

variable {s : ShellState} {e : LineEditor} {cmd : Chars} {c : Command}

/-- The ring of rows holds the last commands. -/
structure Remembers (s : ShellState) (e : LineEditor) : Prop where
  head : s.histHead < histSize
  count : s.histCount = e.past.length
  pos : s.histPos = e.place
  row : ∀ j c, e.past[j]? = some c →
    Holds (s.history ((s.histHead + histSize - s.histCount + j) % histSize)) c.val

theorem Remembers.push (h : Remembers s e) (hcmd : Holds cmd c.val) :
    Remembers (histPush cmd s) (e.remember c) := by
  have hhead := h.head
  have hcount := h.count
  have hpast := e.past_le
  have hsize : histSize = 16 := rfl
  have hlength : (e.remember c).past.length = min (e.past.length + 1) 16 := by
    simp only [LineEditor.remember, length_drop, length_append, length_singleton]
    omega
  have hcount' : (histPush cmd s).histCount = min (e.past.length + 1) 16 := by
    simp only [histPush]
    split
    all_goals omega
  refine
    { head := Nat.mod_lt _ (by decide)
      count := hcount'.trans hlength.symm
      pos := h.pos
      row := fun j c' hget => ?_ }
  rw [hcount']
  simp only [LineEditor.remember, getElem?_drop] at hget
  dsimp only [histPush]
  rw [hsize] at hhead hpast hget ⊢
  obtain ⟨hlt, -⟩ := List.getElem?_eq_some_iff.mp hget
  rw [length_append, length_singleton] at hlt
  by_cases hlast : e.past.length + 1 - 16 + j = e.past.length
  · rw [hlast, getElem?_concat_length] at hget
    cases hget
    have hslot : ((s.histHead + 1) % 16 + 16 - min (e.past.length + 1) 16 + j) % 16 = s.histHead := by omega
    rw [hslot, update_self]
    exact (hcmd.copy c.property.2 c.property.1).2
  · rw [getElem?_append_left (by omega)] at hget
    have hslot : ((s.histHead + 1) % 16 + 16 - min (e.past.length + 1) 16 + j) % 16 =
        (s.histHead + 16 - s.histCount + (e.past.length + 1 - 16 + j)) % 16 := by omega
    rw [hslot, update_of_ne (by omega)]
    exact h.row _ c' hget

theorem Remembers.last (h : Remembers s e) : Remembers { s with histPos := s.histCount } e.last :=
  { h with pos := h.count }

theorem Remembers.line (h : Remembers s e) (buffer : Chars) (len cursor : Int) (l : Line) : Remembers
      { s with
        shellBuffer := buffer
        bufferLen := len
        cursorPos := cursor } { e with line := l } :=
  { h with }

end History

/-- The shell shows what the editor has. -/
structure Shows (s : ShellState) (e : LineEditor) : Prop extends Remembers s e where
  text : Holds s.shellBuffer e.line.text
  bufferLen : s.bufferLen = e.line.text.length
  cursorPos : s.cursorPos = e.line.cursor

section Keys

variable {s : ShellState} {e : LineEditor} {place : Nat}

variable (h : Shows s e)

include h

theorem Shows.recalled (hplace : place < e.past.length) :
    Shows (recallLine { s with histPos := place }) (e.recalled place hplace) := by
  have hrow := h.row place _ (getElem?_eq_getElem hplace)
  have hcommand := e.past[place].property
  obtain ⟨hlength, hholds⟩ := @Holds.copy _ s.shellBuffer _ hrow hcommand.2 hcommand.1
  exact
    { head := h.head
      count := h.count
      pos := rfl
      row := h.row
      text := hholds
      bufferLen := congrArg Nat.cast hlength
      cursorPos := congrArg Nat.cast hlength }

theorem Shows.enter : Shows (executeCommand s) e.enter := by
  have hadded : Remembers (if s.bufferLen > 0 then histAdd s.shellBuffer s else s)
      (if (commandOf e.line.text e.line.length_le).val = [] then e
        else (e.remember (commandOf e.line.text e.line.length_le)).last) := by
    have hiff : (commandOf e.line.text e.line.length_le).val = [] ↔ s.shellBuffer 0 = 0 := h.text.nil_iff
    by_cases hfirst : s.shellBuffer 0 = 0
    · rw [if_pos (hiff.mpr hfirst), histAdd, if_pos hfirst, ite_self]
      exact h.toRemembers
    · have hne : e.line.text.length ≠ 0 := fun hzero => hfirst (hzero ▸ h.text.2)
      have hpos : s.bufferLen > 0 := by
        rw [h.bufferLen]
        omega
      rw [if_neg (mt hiff.mp hfirst), if_pos hpos, histAdd, if_neg hfirst]
      exact (h.toRemembers.push h.text.command).last
  exact
    { hadded.line _ _ _ Line.empty with
      text := holds_empty rfl
      bufferLen := rfl
      cursorPos := rfl }

theorem Shows.up : Shows (historyBack s) (e.press .up) := by
  have hcount := h.count
  have hpos := h.pos
  have hplace := e.place_le
  unfold historyBack LineEditor.press
  by_cases hup : 0 < e.place
  · rw [if_pos (by omega), dif_pos hup, hpos]
    exact h.recalled _
  · rw [if_neg (by omega), dif_neg hup]
    exact h

theorem Shows.down : Shows (historyForward s) (e.press .down) := by
  have hcount := h.count
  have hpos := h.pos
  unfold historyForward LineEditor.press
  dsimp only
  by_cases hdown : e.place < e.past.length
  · rw [if_pos (by omega)]
    by_cases hrow : e.place + 1 < e.past.length
    · rw [if_neg (by omega), dif_pos hrow, hpos]
      exact h.recalled hrow
    · rw [if_pos (by omega), dif_neg hrow, if_pos hdown]
      exact
        { h with
          pos := by
            rw [hpos]
            exact Nat.le_antisymm hdown (Nat.le_of_not_lt hrow)
          text := holds_empty (update_self 0 0 s.shellBuffer)
          bufferLen := rfl
          cursorPos := rfl }
  · rw [if_neg (by omega), dif_neg (by omega), if_neg hdown]
    exact h

theorem Shows.backspace : Shows (eraseChar s) (e.press .backspace) := by
  have hlen := h.bufferLen
  have hcursor := h.cursorPos
  have hle := e.line.cursor_le
  unfold eraseChar LineEditor.press Line.backspace
  dsimp only
  by_cases hpos : 0 < e.line.cursor
  · have hstart : (s.cursorPos - 1).toNat = e.line.cursor - 1 := by omega
    have hcount : (s.bufferLen - (s.cursorPos - 1)).toNat = e.line.text.length -
      (e.line.cursor - 1) := by omega
    rw [if_pos (by omega), dif_pos hpos, hstart, hcount]
    have hlength := length_eraseIdx_of_lt (show e.line.cursor - 1 < e.line.text.length by omega)
    refine
      { h with
        text := ⟨?_, ?_⟩
        bufferLen := ?_
        cursorPos := ?_ }
    · rw [hlength, Shift.listed_close_one (by omega) (by omega), Nat.sub_add_cancel (by omega), h.text.1]
    · dsimp only
      rw [hlength, Shift.close_apply, if_pos (by omega), Nat.sub_add_cancel (by omega)]
      exact h.text.2
    · dsimp only
      omega
    · dsimp only
      omega
  · rw [if_neg (by omega), dif_neg hpos]
    exact h

theorem Shows.char (c : UInt8) : Shows (insertChar c s) (e.press (.char c)) := by
  have hlen := h.bufferLen
  have hcursor := h.cursorPos
  have hle := e.line.cursor_le
  have hsize : (shellBufferSize : Int) = 256 := rfl
  unfold insertChar LineEditor.press Line.insert
  dsimp only
  by_cases hroom : e.line.text.length < 255
  · have hstart : s.cursorPos.toNat = e.line.cursor := by omega
    have hcount : (s.bufferLen - s.cursorPos).toNat = e.line.text.length - e.line.cursor := by omega
    have hend : (s.bufferLen + 1).toNat = e.line.text.length + 1 := by omega
    have hlength := length_insertIdx_of_le_length hle c
    -- at the end of the line the loop would have no turn
    have hshift : (if s.cursorPos < s.bufferLen then
        Shift.expand e.line.cursor (e.line.text.length - e.line.cursor) s.shellBuffer else s.shellBuffer) =
        Shift.expand e.line.cursor (e.line.text.length - e.line.cursor) s.shellBuffer := by
      split
      · rfl
      · rw [show e.line.text.length - e.line.cursor = 0 by omega]
        rfl
    rw [if_pos (by omega), dif_pos hroom, hstart, hcount, hend, hshift]
    refine
      { h with
        text := ⟨?_, ?_⟩
        bufferLen := ?_
        cursorPos := ?_ }
    · rw [hlength, Shift.listed_congr fun k hk => update_of_ne hk.ne _ _]
      have hinsert := @Shift.listed_expand _ s.shellBuffer e.line.cursor (e.line.text.length - e.line.cursor) c
      rw [Nat.add_sub_cancel' hle, h.text.1] at hinsert
      exact hinsert
    · dsimp only
      rw [hlength, update_self]
    · dsimp only
      omega
    · dsimp only
      omega
  · rw [if_neg (by omega), dif_neg hroom]
    exact h

theorem Shows.press (key : ShellKey) : Shows (shellInput s key) (e.press (keyOf key)) := by
  have hlen := h.bufferLen
  have hcursor := h.cursorPos
  have hle := e.line.cursor_le
  unfold shellInput keyOf
  split
  · exact h
  split
  · exact h.enter
  split
  · refine { h with cursorPos := ?_ }
    dsimp only [LineEditor.press, Line.left]
    split <;> omega
  split
  · refine { h with cursorPos := ?_ }
    dsimp only [LineEditor.press, Line.right]
    split <;> omega
  split
  · exact h.up
  split
  · exact h.down
  split
  · exact h.backspace
  · exact h.char key.val

end Keys

theorem boot_shows : Shows shellBoot LineEditor.boot :=
  { head := by decide
    count := rfl
    pos := rfl
    row := nofun
    text := holds_empty rfl
    bufferLen := rfl
    cursorPos := rfl }

theorem Shows.load {s : ShellState} {e : LineEditor} (rows : List Chars) (h : Shows s e) :
    Shows (shellLoadHistory rows s) (e.load rows) := by
  suffices hrows : ∀ rows : List Chars, Shows
      (rows.foldl (fun s buf => histPush (Function.update buf 255 0) s) s)
      (rows.foldl (fun e buf =>
        e.remember (commandOf (Shift.listed buf 255) (Shift.length_listed.le))) e) by
    exact { hrows _ with pos := (hrows _).count }
  intro rows
  induction rows generalizing s e with
  | nil => exact h
  | cons buf rows ih =>
    have hbuf : Holds (Function.update buf 255 0) (Shift.listed buf 255) := by
      rw [Holds, Shift.length_listed]
      exact ⟨Shift.listed_congr fun k hk => update_of_ne hk.ne _ _, update_self ..⟩
    exact ih
      { h.toRemembers.push (c := commandOf _ (Shift.length_listed.le)) hbuf.command with
        text := h.text
        bufferLen := h.bufferLen
        cursorPos := h.cursorPos }

theorem Shows.presses {s : ShellState} {e : LineEditor} (keys : List ShellKey) (h : Shows s e) :
    Shows (keys.foldl shellInput s) ((keys.map keyOf).foldl LineEditor.press e) := by
  induction keys generalizing s e with
  | nil => exact h
  | cons key keys ih => exact ih (h.press key)

/-- **The line editor.** After any keys the shell has the line and the history of the editor, and its cursor
and its terminator are in their places. -/
theorem shellInput_edits (rows : List Chars) (keys : List ShellKey) :
    let s := keys.foldl shellInput (shellLoadHistory rows shellBoot)
    Shows s ((keys.map keyOf).foldl LineEditor.press (LineEditor.boot.load rows)) ∧
      0 ≤ s.cursorPos ∧ s.cursorPos ≤ s.bufferLen ∧ s.bufferLen ≤ 255 ∧
      s.shellBuffer s.bufferLen.toNat = 0 := by
  intro s
  have hshows : Shows s _ := (boot_shows.load rows).presses keys
  refine ⟨hshows, ?_⟩
  generalize (keys.map keyOf).foldl LineEditor.press (LineEditor.boot.load rows) = e at hshows
  have hcursor := e.line.cursor_le
  have hlength := e.line.length_le
  have hzero := hshows.text.2
  rw [hshows.cursorPos, hshows.bufferLen, Int.toNat_natCast]
  exact ⟨by omega, by omega, by omega, hzero⟩

end JexOs.Shell
