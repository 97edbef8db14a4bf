import JexOs.Editor

/-!
# The text of the editor

Every handler keeps the length within the buffer and the terminator behind the text. An undo and a file
that cannot be opened do not.
-/

namespace JexOs.Editor

open List Option

/-! ### The invariant -/

structure Sound (s : EditorState) : Prop where
  nonneg : 0 ≤ s.length
  bound : s.length < maxFileSize
  terminated : s.buffer s.length = 0

structure Good (s : EditorState) : Prop extends Sound s where
  snapshot : ∀ undo, s.undo = some undo → 0 ≤ undo.savedLength ∧ undo.savedLength < maxFileSize

def Use.Inside (use : Use) : Prop := 0 ≤ use.pos ∧ use.pos ≤ use.length

def Handles (r : Option (EditorState × List Use)) : Prop :=
  ∃ s uses, r = some (s, uses) ∧ Good s ∧ ∀ use ∈ uses, use.Inside

section Invariant

variable {s s' : EditorState}

theorem Good.of_eq (h : Good s) (hbuffer : s'.buffer = s.buffer) (hlength : s'.length = s.length)
    (hundo : s'.undo = s.undo) : Good s' :=
  { nonneg := hlength ▸ h.nonneg
    bound := hlength ▸ h.bound
    terminated := by rw [hbuffer, hlength, h.terminated]
    snapshot := hundo ▸ h.snapshot }

theorem Good.of_none (h : Good s) (hbuffer : s'.buffer = s.buffer) (hlength : s'.length = s.length)
    (hundo : s'.undo = none) : Good s' :=
  { nonneg := hlength ▸ h.nonneg
    bound := hlength ▸ h.bound
    terminated := by rw [hbuffer, hlength, h.terminated]
    snapshot := fun undo heq => by rw [hundo] at heq; cases heq }

theorem Good.handles (h : Good s) : Handles (quiet s) := ⟨s, [], rfl, h, nofun⟩

theorem Handles.ite {p : Prop} [Decidable p] {r r' : Option (EditorState × List Use)}
    (h : p → Handles r) (h' : ¬ p → Handles r') : Handles (if p then r else r') := by
  split
  · exact h ‹_›
  · exact h' ‹_›

end Invariant

section Positions

variable {s : EditorState} {cx cy line : Int} {bytes : List UInt8} {i j l x y : Nat}

theorem text_length (s : EditorState) : (text s).length = s.length.toNat := by
  unfold text
  rw [length_map, length_range]

theorem posLoop_range (h : posLoop cx cy bytes i x y = some j) : j < i + bytes.length := by
  induction bytes generalizing i x y with
  | nil => cases h
  | cons c rest ih =>
    rw [length_cons]
    unfold posLoop at h
    dsimp only at h
    split at h
    · cases h
      omega
    · split at h
      · cases h
        omega
      · have hrest := ih h
        omega

theorem startLoop_range (h : startLoop line bytes i l = some j) : j < i + bytes.length := by
  induction bytes generalizing i l with
  | nil => cases h
  | cons c rest ih =>
    rw [length_cons]
    unfold startLoop at h
    split at h
    · cases h
      omega
    · have hrest := ih h
      omega

theorem endLoop_range (h : endLoop line bytes i l = some j) : i ≤ j ∧ j < i + bytes.length := by
  induction bytes generalizing i l with
  | nil => cases h
  | cons c rest ih =>
    rw [length_cons]
    unfold endLoop at h
    split at h
    · cases h
      omega
    · obtain ⟨hlow, hhigh⟩ := ih h
      omega

theorem startLoop_of_endLoop (h : endLoop line bytes i l = some j) :
    ∃ k ≤ j, startLoop line bytes i l = some k := by
  induction bytes generalizing i l with
  | nil => cases h
  | cons c rest ih =>
    unfold startLoop
    by_cases hline : (l : Int) = line
    · exact ⟨i, (endLoop_range h).1, if_pos hline⟩
    · rw [if_neg hline]
      unfold endLoop at h
      rw [if_neg fun hboth => hline hboth.1] at h
      exact ih h

variable (hlength : 0 ≤ s.length)

include hlength

theorem orLength_inside {found : Option Nat} (h : ∀ i, found = some i → i < s.length.toNat) :
    0 ≤ orLength s found ∧ orLength s found ≤ s.length := by
  cases found with
  | none => exact ⟨hlength, Int.le_refl _⟩
  | some i =>
    have hi := h i rfl
    unfold orLength
    dsimp only
    omega

theorem getBufferPos_inside : 0 ≤ getBufferPos s ∧ getBufferPos s ≤ s.length :=
  orLength_inside hlength fun i h => by
    have hrange := posLoop_range h
    rwa [text_length, Nat.zero_add] at hrange

theorem lineEnd_inside (line : Int32) : 0 ≤ lineEnd s line ∧ lineEnd s line ≤ s.length :=
  orLength_inside hlength fun i h => by
    have hrange := (endLoop_range h).2
    rwa [text_length, Nat.zero_add] at hrange

theorem lineStart_inside (line : Int32) : 0 ≤ lineStart s line ∧ lineStart s line ≤ s.length :=
  orLength_inside hlength fun i h => by
    have hrange := startLoop_range h
    rwa [text_length, Nat.zero_add] at hrange

theorem lineStart_le_lineEnd (line : Int32) : lineStart s line ≤ lineEnd s line := by
  have hstart := (lineStart_inside hlength line).2
  cases hend : endLoop line.toInt (text s) 0 0 with
  | none =>
    unfold lineEnd
    rw [hend]
    exact hstart
  | some j =>
    obtain ⟨k, hk, hloop⟩ := startLoop_of_endLoop hend
    unfold lineEnd lineStart
    rw [hend, hloop]
    exact Int.ofNat_le.mpr hk

end Positions

section Text

variable {s : EditorState} {pos : Int} {c : UInt8} {grant : Option Block} {answers : Answers}

theorem setByte_self (m : Block) (a : Int) (c : UInt8) : setByte m a c a = c := if_pos rfl

variable (h : Good s)

include h

theorem bufferInsertChar_good (pos : Int) (c : UInt8) : Good (bufferInsertChar pos c s) := by
  have hnonneg := h.nonneg
  unfold bufferInsertChar
  split
  · exact h
  · exact
      { nonneg := show 0 ≤ s.length + 1 by omega
        bound := show s.length + 1 < maxFileSize by omega
        terminated := setByte_self _ _ _
        snapshot := h.snapshot }

theorem bufferDeleteAt_good (hpos : 0 ≤ pos) : Good (bufferDeleteAt pos s) := by
  have hbound := h.bound
  unfold bufferDeleteAt
  split
  · exact h
  · exact
      { nonneg := show 0 ≤ s.length - 1 by omega
        bound := show s.length - 1 < maxFileSize by omega
        terminated := setByte_self _ _ _
        snapshot := h.snapshot }

theorem saveUndoSnapshot_good (grant : Option Block) : ∃ s', saveUndoSnapshot grant s = some s' ∧ Good s' := by
  unfold saveUndoSnapshot
  split
  · cases grant with
    | none => exact ⟨s, rfl, h⟩
    | some block =>
      dsimp only
      rw [if_neg (Int.not_lt.mpr h.nonneg)]
      refine ⟨_, rfl,
        { nonneg := h.nonneg
          bound := h.bound
          terminated := h.terminated
          snapshot := ?_ }⟩
      intro undo heq
      cases heq
      exact ⟨h.nonneg, h.bound⟩
  · exact ⟨s, rfl, h⟩

theorem clampCursor_good : Good (clampCursor s) := h.of_eq rfl rfl rfl

omit h in
theorem Handles.clamp {r : Option (EditorState × List Use)} (h : Handles r) :
    Handles (r.map fun r => (clampCursor r.1, r.2)) := by
  obtain ⟨s, uses, rfl, hgood, huses⟩ := h
  exact ⟨clampCursor s, uses, rfl, clampCursor_good hgood, huses⟩

theorem copyLine_good : Good (copyLine s) := h.of_eq rfl rfl rfl

omit h in
theorem removeEnd_inside {last : Int} (hhigh : last ≤ s.length) :
    last ≤ removeEnd s last ∧ removeEnd s last ≤ s.length := by
  unfold removeEnd
  split <;> omega

theorem removeLine_good : Good (removeLine s) := by
  have hbound := h.bound
  have hstart := lineStart_inside h.nonneg s.cursorY
  have hle := lineStart_le_lineEnd h.nonneg s.cursorY
  have hend := lineEnd_inside h.nonneg s.cursorY
  have hremove := removeEnd_inside hend.2
  exact
    { nonneg := show 0 ≤ s.length - (removeEnd s (lineEnd s s.cursorY) - lineStart s s.cursorY) by omega
      bound := show s.length - (removeEnd s (lineEnd s s.cursorY) - lineStart s s.cursorY) <
        maxFileSize by omega
      terminated := setByte_self _ _ _
      snapshot := h.snapshot }

theorem cutLine_handles (grant : Option Block) : Handles (cutLine grant s) := by
  obtain ⟨s', hsave, hgood⟩ := saveUndoSnapshot_good h grant
  have hend := lineEnd_inside hgood.nonneg s'.cursorY
  have hremove := removeEnd_inside hend.2
  unfold cutLine
  rw [hsave]
  refine ⟨_, _, rfl, removeLine_good hgood, fun use hmem => ?_⟩
  rcases mem_cons.mp hmem with rfl | hmem
  · exact lineStart_inside hgood.nonneg s'.cursorY
  · cases mem_singleton.mp hmem
    exact ⟨Int.le_trans hend.1 hremove.1, hremove.2⟩

theorem pasteClipboard_handles (grant : Option Block) : Handles (pasteClipboard grant s) := by
  unfold pasteClipboard
  split
  · exact Good.handles (h.of_eq rfl rfl rfl)
  · obtain ⟨s', hsave, hgood⟩ := saveUndoSnapshot_good h grant
    have hnonneg := hgood.nonneg
    rw [hsave]
    dsimp only [bind, Option.bind]
    split
    · exact Good.handles (hgood.of_eq rfl rfl rfl)
    · rename_i hroom
      refine ⟨_, _, rfl,
        { nonneg := show 0 ≤ s'.length + (s'.clipboard.length : Int) by omega
          bound := Int.not_le.mp hroom
          terminated := setByte_self _ _ _
          snapshot := hgood.snapshot }, fun use hmem => ?_⟩
      cases mem_singleton.mp hmem
      exact getBufferPos_inside hnonneg

/-! ### The keys that edit -/

theorem backspace_handles (answers : Answers) : Handles (backspace answers s) := by
  obtain ⟨s', hsave, hgood⟩ := saveUndoSnapshot_good h answers.grant
  have hpos := getBufferPos_inside hgood.nonneg
  unfold backspace
  rw [hsave]
  dsimp only [bind, Option.bind]
  split
  · have hdelete : Good (bufferDeleteAt (getBufferPos s' - 1) s') := bufferDeleteAt_good hgood (by omega)
    have huse : ∀ use ∈ [({ pos := getBufferPos s' - 1, length := s'.length } : Use)], use.Inside := by
      intro use hmem
      cases mem_singleton.mp hmem
      exact ⟨show 0 ≤ getBufferPos s' - 1 by omega, show getBufferPos s' - 1 ≤ s'.length by omega⟩
    split
    · exact ⟨_, _, rfl, hdelete.of_eq rfl rfl rfl, huse⟩
    · split
      · exact ⟨_, _, rfl, hdelete.of_eq rfl rfl rfl, huse⟩
      · exact Good.handles (hgood.of_eq rfl rfl rfl)
  · exact Good.handles hgood

theorem insertSpaces_good
    (n : Nat) : Good (insertSpaces n s).1 ∧ ∀ use ∈ (insertSpaces n s).2, use.Inside := by
  induction n generalizing s with
  | zero => exact ⟨h, nofun⟩
  | succ n ih =>
    have hpass : Good (insertSpace s) := (bufferInsertChar_good h (getBufferPos s) space).of_eq rfl rfl rfl
    obtain ⟨hgood, huses⟩ := ih hpass
    refine ⟨hgood, fun use hmem => ?_⟩
    rcases mem_cons.mp hmem with rfl | hmem
    · exact getBufferPos_inside h.nonneg
    · exact huses use hmem

theorem enter_handles (answers : Answers) : Handles (enter answers s) := by
  obtain ⟨s', hsave, hgood⟩ := saveUndoSnapshot_good h answers.grant
  unfold enter
  rw [hsave]
  have hline : Good
      { bufferInsertChar (getBufferPos s') newline s' with
        cursorY := s'.cursorY + 1
        cursorX := 0 } := (bufferInsertChar_good hgood _ _).of_eq rfl rfl rfl
  obtain ⟨hspaces, huses⟩ := insertSpaces_good hline (getIndentCount s' s'.cursorY)
  refine ⟨_, _, rfl, hspaces.of_eq rfl rfl rfl, fun use hmem => ?_⟩
  rcases mem_cons.mp hmem with rfl | hmem
  · exact getBufferPos_inside hgood.nonneg
  · exact huses use hmem

theorem tab_handles (answers : Answers) : Handles (tab answers s) := by
  obtain ⟨s', hsave, hgood⟩ := saveUndoSnapshot_good h answers.grant
  unfold tab
  rw [hsave]
  obtain ⟨hspaces, huses⟩ := insertSpaces_good hgood tabSize
  exact ⟨_, _, rfl, hspaces.of_eq rfl rfl rfl, huses⟩

theorem printable_handles (key : UInt8) (answers : Answers) : Handles (printable key answers s) := by
  obtain ⟨s', hsave, hgood⟩ := saveUndoSnapshot_good h answers.grant
  unfold printable
  rw [hsave]
  refine ⟨_, _, rfl, (bufferInsertChar_good hgood (getBufferPos s') key).of_eq rfl rfl rfl, fun use hmem => ?_⟩
  cases mem_singleton.mp hmem
  exact getBufferPos_inside hgood.nonneg

/-! ### The keys that do not -/

theorem saveFileInternal_good (saving : Saving) : Good (saveFileInternal saving s) := by
  unfold saveFileInternal
  split
  · exact h.of_eq rfl rfl rfl
  · split
    · exact h.of_eq rfl rfl rfl
    · split
      · exact h.of_eq rfl rfl rfl
      · exact h.of_eq rfl rfl rfl

theorem performSearch_good : Good (performSearch s) := by
  unfold performSearch
  split
  · exact h.of_eq rfl rfl rfl
  · split
    · exact h.of_eq rfl rfl rfl
    · exact h.of_eq rfl rfl rfl

theorem performGoto_good : Good (performGoto s) := h.of_eq rfl rfl rfl

theorem promptInput_good (key : UInt8) : Good (promptInput key s) := by
  unfold promptInput
  split
  · exact h.of_eq rfl rfl rfl
  · split
    · split
      · exact performSearch_good h
      · exact performGoto_good h
    · split
      · exact h.of_eq rfl rfl rfl
      · split
        · split
          · exact h.of_eq rfl rfl rfl
          · exact h
        · exact h

theorem confirmInput_good (key : UInt8) (answers : Answers) : Good (confirmInput key answers s) := by
  have hsaved : Good (if isYes key then saveFileInternal answers.saving s else s) := by
    split
    · exact saveFileInternal_good h answers.saving
    · exact h
  unfold confirmInput
  dsimp only
  split
  · exact hsaved.of_eq rfl rfl rfl
  · exact hsaved.of_eq rfl rfl rfl

theorem quit_good : Good (quit s) := by
  unfold quit
  split
  · exact h.of_eq rfl rfl rfl
  · exact h.of_eq rfl rfl rfl

theorem save_good (answers : Answers) : Good (save answers s) := by
  have hsaved := saveFileInternal_good h answers.saving
  unfold save
  dsimp only
  split
  · exact hsaved.of_none rfl rfl rfl
  · exact hsaved

omit h in
theorem newFile_good (s : EditorState) : Good (newFile s) :=
  { nonneg := Int.le_refl 0
    bound := show (0 : Int) < maxFileSize by decide
    terminated := setByte_self s.buffer 0 0
    snapshot := nofun }

theorem normalInput_handles {key : UInt8} (hkey : key ≠ 0x1A) (answers : Answers) :
    Handles (normalInput key answers s) := by
  unfold normalInput
  have hs : Good
      { s with
        saveStatus := .none
        statusMsg := "" } := h.of_eq rfl rfl rfl
  refine .ite (fun _ => (quit_good hs).handles) fun _ => ?_
  refine .ite (fun _ => (save_good hs answers).handles) fun _ => ?_
  refine .ite (fun _ => (saveFileInternal_good hs answers.saving).handles) fun _ => ?_
  refine .ite (fun hundo => absurd hundo hkey) fun _ => ?_
  refine .ite (fun _ => Good.handles (hs.of_eq rfl rfl rfl)) fun _ => ?_
  refine .ite (fun _ => Good.handles (hs.of_eq rfl rfl rfl)) fun _ => ?_
  refine .ite (fun _ => (newFile_good _).handles) fun _ => ?_
  refine .ite (fun _ => (cutLine_handles hs answers.grant).clamp) fun _ => ?_
  refine .ite (fun _ => (copyLine_good hs).handles) fun _ => ?_
  refine .ite (fun _ => (pasteClipboard_handles hs answers.grant).clamp) fun _ => ?_
  refine .ite (fun _ => Good.handles (hs.of_eq rfl rfl rfl)) fun _ => ?_
  refine .ite (fun _ => Good.handles (hs.of_eq rfl rfl rfl)) fun _ => ?_
  refine .ite (fun _ => Good.handles (hs.of_eq rfl rfl rfl)) fun _ => ?_
  refine .ite (fun _ => Good.handles (hs.of_eq rfl rfl rfl)) fun _ => ?_
  refine .ite (fun _ => Good.handles (hs.of_eq rfl rfl rfl)) fun _ => ?_
  refine .ite (fun _ => Good.handles (hs.of_eq rfl rfl rfl)) fun _ => ?_
  refine .ite (fun _ => Good.handles (hs.of_eq rfl rfl rfl)) fun _ => ?_
  refine .ite (fun _ => Good.handles (hs.of_eq rfl rfl rfl)) fun _ => ?_
  refine .ite (fun _ => backspace_handles hs answers) fun _ => ?_
  refine .ite (fun _ => enter_handles hs answers) fun _ => ?_
  refine .ite (fun _ => tab_handles hs answers) fun _ => ?_
  exact .ite (fun _ => printable_handles hs key answers) fun _ => hs.handles

end Text

/-! ### Steps -/

def EditorState.undoes (s : EditorState) (key : UInt8) : Prop :=
  s.running = true ∧ s.subMode = .normal ∧ s.quitConfirm = false ∧ key = 0x1A

/-- The file can be opened and read, or it lies under a mount that does not know it. -/
def Target.Readable (target : Target) : Prop :=
  match target.served with
  | .mount none _ => True
  | .mount (some _) bytes => bytes.isSome
  | .jexfs inode _ => target.free.isSome ∧ inode.isOk

def Session.opens (e : Session) (allocated : Bool) (grant : Option Block) : Bool :=
  match e with
  | .opened _ => true
  | .bare => grant.isSome
  | .absent => allocated && grant.isSome

/-- A file that is opened can be read, and behind a snapshot that is brought back there is a terminator. -/
def Proper (e : Session) : Event → Prop
  | .start _ target allocated grant => e.opens allocated grant = true → target.Readable
  | .key key _ =>
    match e with
    | .opened s => s.undoes key →
        ∀ undo, s.undo = some undo → undo.savedBuffer undo.savedLength = 0
    | _ => True

def Session.Holds : Session → Prop
  | .opened s => Sound s
  | _ => True

def Session.Fine : Session → Prop
  | .opened s => Good s
  | _ => True

section Steps

variable {e e' : Session} {s : EditorState} {event : Event} {target : Target} {key : UInt8}

theorem performUndo_good (h : Good s) (hundo : s.undo = none) : Good (performUndo s) := by
  unfold performUndo
  split
  · exact h.of_eq rfl rfl rfl
  · rename_i heq
    rw [hundo] at heq
    cases heq

theorem performUndo_sound {undo : UndoSnapshot} (h : Good s) (hundo : s.undo = some undo) :
    (Sound (performUndo s) ↔ undo.savedBuffer undo.savedLength = 0) ∧
      (Sound (performUndo s) → Good (performUndo s)) := by
  obtain ⟨hlow, hhigh⟩ := h.snapshot undo hundo
  unfold performUndo
  rw [hundo]
  exact ⟨⟨fun hs => hs.terminated, fun hbyte =>
      { nonneg := hlow
        bound := hhigh
        terminated := hbyte }⟩,
    fun hs =>
      { toSound := hs
        snapshot := nofun }⟩

theorem editorInput_spec (h : Good s) (key : UInt8) (answers : Answers) :
    ∃ s' uses, editorInput key answers s = some (s', uses) ∧ (∀ use ∈ uses, use.Inside) ∧
      (Sound s' ↔ Proper (.opened s) (.key key answers)) ∧ (Sound s' → Good s') := by
  have hquiet {r : Option (EditorState × List Use)} (hr : Handles r) (hnot : ¬ s.undoes key) :
      ∃ s' uses, r = some (s', uses) ∧ (∀ use ∈ uses, use.Inside) ∧
        (Sound s' ↔ Proper (.opened s) (.key key answers)) ∧ (Sound s' → Good s') := by
    obtain ⟨s', uses, heq, hgood, huses⟩ := hr
    exact ⟨s', uses, heq, huses,
      ⟨fun _ hundoes => absurd hundoes hnot, fun _ => hgood.toSound⟩, fun _ => hgood⟩
  unfold editorInput
  split
  · rename_i hrunning
    refine hquiet h.handles fun hundoes => ?_
    rw [hundoes.1] at hrunning
    cases hrunning
  · rename_i hrunning
    split
    · rename_i hmode
      exact hquiet (promptInput_good h key).handles fun hundoes => hmode hundoes.2.1
    · rename_i hmode
      split
      · rename_i hconfirm
        refine hquiet (confirmInput_good h key answers).handles fun hundoes => ?_
        rw [hundoes.2.2.1] at hconfirm
        cases hconfirm
      · rename_i hconfirm
        by_cases hkey : key = 0x1A
        · have hs : Good
              { s with
                saveStatus := .none
                statusMsg := "" } := h.of_eq rfl rfl rfl
          have hundoes : s.undoes key :=
            ⟨by simpa using hrunning, Decidable.not_not.mp hmode, by simpa using hconfirm, hkey⟩
          subst hkey
          cases hundo : s.undo with
          | none =>
            have hgood := performUndo_good hs hundo
            refine ⟨_, [], rfl, nofun, ⟨fun _ _ undo heq => ?_, fun _ => hgood.toSound⟩, fun _ => hgood⟩
            rw [hundo] at heq
            cases heq
          | some undo =>
            obtain ⟨hiff, hgood⟩ := performUndo_sound hs hundo
            refine ⟨_, [], rfl, nofun, hiff.trans ⟨fun hbyte _ undo' heq => ?_, fun hproper => ?_⟩, hgood⟩
            · rw [hundo] at heq
              cases heq
              exact hbyte
            · exact hproper hundoes undo hundo
        · exact hquiet (normalInput_handles h hkey answers) fun hundoes => hkey hundoes.2.2.2

theorem loadFile_length (target : Target)
    (buffer : Block) : (0 ≤ (loadFile target buffer).1 ↔ target.Readable) ∧
      (loadFile target buffer).1 < maxFileSize := by
  have hread (bytes : List UInt8) {p : Prop} (hp : p) :
      (0 ≤ ((bytes.take (maxFileSize - 1).toNat).length : Int) ↔ p) ∧
        ((bytes.take (maxFileSize - 1).toNat).length : Int) < maxFileSize := by
    have hle := length_take_le (maxFileSize - 1).toNat bytes
    refine ⟨⟨fun _ => hp, fun _ => Int.natCast_nonneg _⟩, ?_⟩
    unfold maxFileSize at hle ⊢
    omega
  have hfail (n : Int) (hn : n < 0) {p : Prop} (hp : ¬ p) : (0 ≤ n ↔ p) ∧ n < maxFileSize := by
    refine ⟨⟨fun h => absurd hn (Int.not_lt.mpr h), fun h => absurd h hp⟩, ?_⟩
    unfold maxFileSize
    omega
  unfold loadFile Target.Readable fsOpen fsRead
  cases target with
  | mk served free =>
    cases served with
    | mount slot bytes =>
      cases slot with
      | none => exact ⟨⟨fun _ => trivial, fun _ => Int.le_refl 0⟩, show (0 : Int) < _ by decide⟩
      | some slot =>
        have hfd : virtualFdStart + (slot : Int) ≥ virtualFdStart := by omega
        have hne : virtualFdStart + (slot : Int) ≠ -1 := by
          unfold virtualFdStart
          omega
        dsimp only
        rw [if_pos hne, if_pos hfd]
        cases bytes with
        | none => exact hfail (-enodev) (by decide) nofun
        | some bytes => exact hread bytes rfl
    | jexfs inode bytes =>
      cases free with
      | none => exact hfail (-ebadf) (by decide) fun h => nomatch h.1
      | some fd =>
        cases inode with
        | error error =>
          have hcode : -error.code ≠ -1 ∧ -error.code < 0 := by cases error <;> decide
          dsimp only
          rw [if_pos hcode.1, if_pos (.inl hcode.2)]
          exact hfail (-ebadf) (by decide) fun h => nomatch h.2
        | ok inode =>
          dsimp only
          rw [if_pos (by omega), if_neg (by omega)]
          exact hread bytes ⟨rfl, rfl⟩

theorem openFile_sound (filename : List UInt8) (target : Target) (s : EditorState) :
    (Sound (openFile filename target s) ↔ target.Readable) ∧
      (Sound (openFile filename target s) → Good (openFile filename target s)) := by
  obtain ⟨hiff, hbound⟩ := loadFile_length target s.buffer
  refine ⟨⟨fun h => hiff.mp h.nonneg, fun h =>
      { nonneg := hiff.mpr h
        bound := hbound
        terminated := setByte_self _ _ _ }⟩,
    fun h =>
      { toSound := h
        snapshot := nofun }⟩

theorem startEditor_spec (h : e.Fine) (filename : List UInt8) (target : Target) (allocated : Bool)
    (grant : Option Block) : ∃ e' uses, step e (.start filename target allocated grant) = some (e', uses) ∧
      (∀ use ∈ uses, use.Inside) ∧
      (e'.Holds ↔ Proper e (.start filename target allocated grant)) ∧ (e'.Holds → e'.Fine) := by
  have hopen (s : EditorState) (hopens : e.opens allocated grant = true) :
      ((Session.opened (openFile filename target s)).Holds ↔
        Proper e (.start filename target allocated grant)) ∧
      ((Session.opened (openFile filename target s)).Holds →
        (Session.opened (openFile filename target s)).Fine) := by
    obtain ⟨hiff, hgood⟩ := openFile_sound filename target s
    exact ⟨hiff.trans ⟨fun hreadable _ => hreadable, fun hproper => hproper hopens⟩, hgood⟩
  have hnot (hopens : e.opens allocated grant = false) :
      Proper e (.start filename target allocated grant) := by
    intro hyes
    rw [hopens] at hyes
    cases hyes
  cases e with
  | opened s => exact ⟨_, [], rfl, nofun, hopen s rfl⟩
  | bare =>
    cases grant with
    | none => exact ⟨_, [], rfl, nofun, ⟨fun _ => hnot rfl, fun _ => trivial⟩, fun _ => trivial⟩
    | some block => exact ⟨_, [], rfl, nofun, hopen (fresh block) rfl⟩
  | absent =>
    cases allocated with
    | false => exact ⟨_, [], rfl, nofun, ⟨fun _ => hnot rfl, fun _ => trivial⟩, fun _ => trivial⟩
    | true =>
      cases grant with
      | none => exact ⟨_, [], rfl, nofun, ⟨fun _ => hnot rfl, fun _ => trivial⟩, fun _ => trivial⟩
      | some block => exact ⟨_, [], rfl, nofun, hopen (fresh block) rfl⟩

theorem step_spec (h : e.Fine) (event : Event) :
    ∃ e' uses, step e event = some (e', uses) ∧ (∀ use ∈ uses, use.Inside) ∧
      (e'.Holds ↔ Proper e event) ∧ (e'.Holds → e'.Fine) := by
  cases event with
  | start filename target allocated grant => exact startEditor_spec h filename target allocated grant
  | key key answers =>
    cases e with
    | opened s =>
      obtain ⟨s', uses, hinput, huses, hspec⟩ := editorInput_spec h key answers
      refine ⟨.opened s', uses, ?_, huses, hspec⟩
      unfold step
      dsimp only
      rw [hinput]
      rfl
    | bare => exact ⟨_, [], rfl, nofun, ⟨fun _ => trivial, fun _ => trivial⟩, fun _ => trivial⟩
    | absent => exact ⟨_, [], rfl, nofun, ⟨fun _ => trivial, fun _ => trivial⟩, fun _ => trivial⟩

end Steps

/-! ### Runs -/

/-- The text is sound all along the run, no step faults, and edits lie within the text. -/
def Keeps : Session → List Event → Prop
  | e, [] => e.Holds
  | e, event :: events =>
    e.Holds ∧ ∃ e' uses, step e event = some (e', uses) ∧ (∀ use ∈ uses, use.Inside) ∧
      Keeps e' events

def Meets : Session → List Event → Prop
  | _, [] => True
  | e, event :: events =>
    Proper e event ∧ ∀ e' uses, step e event = some (e', uses) → Meets e' events

section Runs

variable {e : Session} {events : List Event}

theorem Session.Fine.holds (h : e.Fine) : e.Holds := by
  cases e with
  | opened s => exact Good.toSound h
  | bare => trivial
  | absent => trivial

theorem Keeps.holds (h : Keeps e events) : e.Holds := by
  cases events with
  | nil => exact h
  | cons event events => exact h.1

theorem Session.Fine.keeps_iff (h : e.Fine) (events : List Event) : Keeps e events ↔ Meets e events := by
  induction events generalizing e with
  | nil => exact ⟨fun _ => trivial, fun _ => h.holds⟩
  | cons event events ih =>
    obtain ⟨e', uses, hstep, huses, hiff, hfine⟩ := step_spec h event
    constructor
    · rintro ⟨-, e₁, uses₁, hstep₁, -, hkeeps⟩
      rw [hstep] at hstep₁
      cases hstep₁
      refine ⟨hiff.mp hkeeps.holds, fun e₂ uses₂ hstep₂ => ?_⟩
      rw [hstep] at hstep₂
      cases hstep₂
      exact (ih (hfine hkeeps.holds)).mp hkeeps
    · rintro ⟨hproper, hmeets⟩
      have hholds := hiff.mpr hproper
      exact ⟨h.holds, e', uses, hstep, huses, (ih (hfine hholds)).mpr (hmeets e' uses hstep)⟩

/-- A run keeps the text sound exactly when all its steps are proper. -/
theorem keeps_iff_meets (events : List Event) : Keeps .absent events ↔ Meets .absent events :=
  Session.Fine.keeps_iff (e := .absent) trivial events

theorem Keeps.run {e' : Session} {uses : List Use} (h : Keeps e events)
    (hrun : run e events = some (e', uses)) : e'.Holds := by
  induction events generalizing e uses with
  | nil =>
    cases hrun
    exact h
  | cons event events ih =>
    obtain ⟨-, e₁, uses₁, hstep, -, hkeeps⟩ := h
    unfold Editor.run at hrun
    rw [hstep] at hrun
    change (Editor.run e₁ events).bind (fun r => some (r.1, uses₁ ++ r.2)) = _ at hrun
    obtain ⟨⟨e₂, rest⟩, hrest, heq⟩ := bind_eq_some_iff.mp hrun
    cases heq
    exact ih hkeeps hrest

def missing : List Event :=
  [.start [110, 101, 119]
    { served := .jexfs (.error .enoent) []
      free := some ⟨0, by decide⟩ } true (some fun _ => 0)]

def noAnswers (grant : Option Block) : Answers :=
  { saving :=
      { target :=
          { served := .mount none none
            free := none }
        created := -1
        again :=
          { served := .mount none none
            free := none }
        written := -1 }
    grant := grant }

def undone : List Event :=
  [.start [104, 105]
    { served := .jexfs (.ok 2) [104, 105]
      free := some ⟨0, by decide⟩ } true (some fun _ => 0),
    .key 33 (noAnswers (some fun _ => 97)), .key 0x1A (noAnswers none)]

def lastState (events : List Event) : Option EditorState := do
  let (e, _) ← run .absent events
  match e with
  | .opened s => some s
  | _ => none

theorem Keeps.lastState {s : EditorState} (h : Keeps .absent events)
    (hlast : lastState events = some s) : Sound s := by
  obtain ⟨⟨e, uses⟩, hrun, hstate⟩ := bind_eq_some_iff.mp hlast
  have hholds := h.run hrun
  cases e with
  | opened s' =>
    cases hstate
    exact hholds
  | bare => cases hstate
  | absent => cases hstate

/-- The length of a file that is not there is -9, and behind the text that comes back is what was in the
block. -/
theorem missing_undone_not_kept : ¬ Keeps .absent missing ∧ ¬ Keeps .absent undone := by
  constructor
  · intro h
    have hlength : (lastState missing).map (·.length) = some (-9) := by decide
    obtain ⟨s, hs, hlength⟩ := map_eq_some_iff.mp hlength
    have hnonneg := (h.lastState hs).nonneg
    rw [hlength] at hnonneg
    exact absurd hnonneg (by decide)
  · intro h
    have hbyte : (lastState undone).map (fun s => s.buffer s.length) = some 97 := by decide
    obtain ⟨s, hs, hbyte⟩ := map_eq_some_iff.mp hbyte
    rw [(h.lastState hs).terminated] at hbyte
    exact absurd hbyte (by decide)

end Runs

end JexOs.Editor
