/-!
# The editor

`src/bin/editor.c` without what it draws, over `fs_open`, `fs_read` and `fs_write` of `src/fs/fs.c`. What
the file systems below `fs.c` and `kmalloc` answer comes with each event. A buffer is memory relative to
its first byte, so that a negative index is memory in front of it.
-/

namespace JexOs.Editor

/-! ### Files -/

def enomem : Int := 12
def ebadf : Int := 9
def enodev : Int := 19

def maxOpenFiles : Nat := 32
def virtualFdStart : Int := 100

/-- The errors of `jexfs_open`. -/
inductive OpenError where
  | enoent
  | enotdir

def OpenError.code : OpenError → Int
  | .enoent => 2
  | .enotdir => 20

/-- Who serves a path: a mount, with the slot that `devtmpfs_open` found and what its `read` copies
unless it fails, or JexFS, with the answer of `jexfs_open` and the bytes of the inode. -/
inductive Served where
  | mount (slot : Option Nat) (bytes : Option (List UInt8))
  | jexfs (inode : Except OpenError Nat) (bytes : List UInt8)

/-- A path, and the first unused descriptor. -/
structure Target where
  served : Served
  free : Option (Fin maxOpenFiles)

def fsOpen (target : Target) : Int :=
  match target.served with
  | .mount none _ => -1
  | .mount (some slot) _ => virtualFdStart + slot
  | .jexfs inode _ =>
    match target.free with
    | none => -enomem
    | some fd =>
      match inode with
      | .error error => -error.code
      | .ok _ => fd.val

/-- `fs_read` from a descriptor that `fs_open` has just returned: its result and what it copies. -/
def fsRead (target : Target) (fd : Int) (size : Nat) : Int × List UInt8 :=
  match target.served with
  | .mount _ bytes =>
    if fd ≥ virtualFdStart then
      match bytes with
      | some bytes => ((bytes.take size).length, bytes.take size)
      | none => (-enodev, [])
    else (-ebadf, [])
  | .jexfs _ bytes =>
    if fd < 0 ∨ fd ≥ maxOpenFiles then (-ebadf, [])
    else ((bytes.take size).length, bytes.take size)

/-- `fs_write`, with the answer of the file system. -/
def fsWrite (fd answer : Int) : Int :=
  if fd ≥ virtualFdStart then if answer ≥ 0 then answer else -enodev
  else if fd < 0 ∨ fd ≥ maxOpenFiles then -ebadf
  else answer

/-! ### The state -/

def editorWidth : Nat := 80
def visibleHeight : Int32 := 24
def maxFileSize : Int := 32768
def maxFilenameLen : Nat := 63
def tabSize : Nat := 4
def clipboardSize : Nat := 4096
def searchTermMax : Nat := 63
def statusMsgMax : Nat := 79

/-- Memory relative to the start of a block. -/
abbrev Block := Int → UInt8

/-- `n` bytes copied from one place to another. -/
def copyTo (m : Block) (dest : Int) (src : Block) (source n : Int) : Block :=
  fun k => if dest ≤ k ∧ k < dest + n then src (source + (k - dest)) else m k

/-- `memmove_local`: what is copied is what was there before. -/
def memmoveLocal (m : Block) (dest source n : Int) : Block := copyTo m dest m source n

def setByte (m : Block) (a : Int) (c : UInt8) : Block := fun k => if k = a then c else m k

def bytesAt (bytes : List UInt8) : Block := fun k => bytes.getD k.toNat 0

inductive SubMode where
  | normal
  | search
  | goto
deriving DecidableEq, Repr

inductive SaveStatus where
  | none
  | ok
  | fail
deriving DecidableEq, Repr

/-- A snapshot, which is there when `has_data` is set. -/
structure UndoSnapshot where
  savedBuffer : Block
  savedLength : Int
  savedCursorX : Int32
  savedCursorY : Int32
  savedScrollY : Int32

/-- The state without `search_pos`, which nothing reads. The clipboard is its first `clipboard_len` bytes,
a string what is in front of its terminator. -/
structure EditorState where
  buffer : Block
  length : Int
  filename : List UInt8
  cursorX : Int32
  cursorXTarget : Int32
  cursorY : Int32
  scrollY : Int32
  running : Bool
  dirty : Bool
  saveStatus : SaveStatus
  quitConfirm : Bool
  undo : Option UndoSnapshot
  clipboard : List UInt8
  subMode : SubMode
  searchTerm : List UInt8
  statusMsg : String

/-- A position that is used for an insertion or deletion, and the length of the text then. -/
structure Use where
  pos : Int
  length : Int

def setStatusMsg (msg : String) (s : EditorState) : EditorState :=
  { s with statusMsg := (msg.take statusMsgMax).copy }

/-! ### Positions -/

def newline : UInt8 := 10
def space : UInt8 := 32

section Positions

variable (s : EditorState)

/-- The bytes that a loop from 0 to the length reads. -/
def text : List UInt8 := (List.range s.length.toNat).map fun (i : Nat) => s.buffer i

/-- A column of the text wraps before the last four of the screen. -/
def nextCell (c : UInt8) (x y : Nat) : Nat × Nat :=
  if c = newline then (0, y + 1)
  else if x + 1 ≥ editorWidth - 4 then (0, y + 1)
  else (x + 1, y)

def posLoop (cursorX cursorY : Int) : List UInt8 → Nat → Nat → Nat → Option Nat
  | [], _, _, _ => none
  | c :: rest, i, x, y =>
    if y = cursorY ∧ x = cursorX then some i
    else
      let (x, y) := nextCell c x y
      if y > cursorY then some i else posLoop cursorX cursorY rest (i + 1) x y

/-- A position that a loop has found, or the length. -/
def orLength (found : Option Nat) : Int :=
  match found with
  | some i => i
  | none => s.length

def getBufferPos : Int := orLength s (posLoop s.cursorX.toInt s.cursorY.toInt (text s) 0 0 0)

def startLoop (line : Int) : List UInt8 → Nat → Nat → Option Nat
  | [], _, _ => none
  | c :: rest, i, l =>
    if l = line then some i
    else startLoop line rest (i + 1) (if c = newline then l + 1 else l)

def lineStart (line : Int32) : Int := orLength s (startLoop line.toInt (text s) 0 0)

def endLoop (line : Int) : List UInt8 → Nat → Nat → Option Nat
  | [], _, _ => none
  | c :: rest, i, l =>
    if l = line ∧ c = newline then some i
    else endLoop line rest (i + 1) (if c = newline then l + 1 else l)

def lineEnd (line : Int32) : Int := orLength s (endLoop line.toInt (text s) 0 0)

def lineLength (line : Int32) : Int32 := Int32.ofInt (lineEnd s line - lineStart s line)

def countLines : Int32 := Int32.ofNat (1 + (text s).count newline)

def clampCursor : EditorState :=
  let totalLines := countLines s
  let y := if s.cursorY < 0 then 0 else s.cursorY
  let y := if y ≥ totalLines then totalLines - 1 else y
  let y := if y < 0 then 0 else y
  let ll := lineLength s y
  let x := if s.cursorX > ll then ll else s.cursorX
  { s with
    cursorY := y
    cursorX := if x < 0 then 0 else x }

end Positions

/-! ### Undo -/

/-- `save_undo_snapshot` with the block that `kmalloc` returns. A negative length is a huge unsigned one
for `memcpy`, which faults. -/
def saveUndoSnapshot (grant : Option Block) (s : EditorState) : Option EditorState :=
  if s.undo.isNone ∧ s.length < maxFileSize then
    match grant with
    | none => some s
    | some block =>
      if s.length < 0 then none
      else
        some { s with
          undo := some
            { savedBuffer := copyTo block 0 s.buffer 0 s.length
              savedLength := s.length
              savedCursorX := s.cursorX
              savedCursorY := s.cursorY
              savedScrollY := s.scrollY } }
  else some s

def performUndo (s : EditorState) : EditorState :=
  match s.undo with
  | none => setStatusMsg "Nothing to undo" s
  | some undo =>
    setStatusMsg "Undo OK"
      { s with
        buffer := undo.savedBuffer
        length := undo.savedLength
        cursorX := undo.savedCursorX
        cursorY := undo.savedCursorY
        scrollY := undo.savedScrollY
        cursorXTarget := undo.savedCursorX
        undo := none
        dirty := true }

/-! ### The text -/

def bufferInsertChar (pos : Int) (c : UInt8) (s : EditorState) : EditorState :=
  if s.length ≥ maxFileSize - 1 then s
  else
    let m := memmoveLocal s.buffer (pos + 1) pos (s.length - pos)
    let m := setByte m pos c
    { s with
      buffer := setByte m (s.length + 1) 0
      length := s.length + 1 }

def bufferDeleteAt (pos : Int) (s : EditorState) : EditorState :=
  if pos ≥ s.length then s
  else
    let m := memmoveLocal s.buffer pos (pos + 1) (s.length - pos - 1)
    { s with
      buffer := setByte m (s.length - 1) 0
      length := s.length - 1 }

/-- The clipboard with what is between two positions, as far as it fits. -/
def clip (s : EditorState) (first last : Int) : List UInt8 :=
  (List.range (min (last - first).toNat (clipboardSize - 1))).map fun (i : Nat) => s.buffer (first + i)

def copyLine (s : EditorState) : EditorState :=
  setStatusMsg "Line copied"
    { s with clipboard := clip s (lineStart s s.cursorY) (lineEnd s s.cursorY) }

/-- The line behind the end of a cut. -/
def removeEnd (s : EditorState) (last : Int) : Int :=
  if last < s.length ∧ s.buffer last = newline then last + 1 else last

/-- `cut_line` behind its snapshot. -/
def removeLine (s : EditorState) : EditorState :=
  let first := lineStart s s.cursorY
  let last := removeEnd s (lineEnd s s.cursorY)
  let removeLen := last - first
  let remaining := s.length - removeLen - first
  let m := if remaining > 0 then memmoveLocal s.buffer first last remaining else s.buffer
  let cut :=
    { s with
      clipboard := clip s first (lineEnd s s.cursorY)
      buffer := setByte m (s.length - removeLen) 0
      length := s.length - removeLen }
  setStatusMsg "Line cut"
    { cut with
      cursorY := if s.cursorY ≥ countLines cut then countLines cut - 1 else s.cursorY
      cursorX := 0
      cursorXTarget := 0
      dirty := true }

def cutLine (grant : Option Block) (s : EditorState) : Option (EditorState × List Use) := do
  let s ← saveUndoSnapshot grant s
  some (removeLine s,
    [{ pos := lineStart s s.cursorY, length := s.length },
      { pos := removeEnd s (lineEnd s s.cursorY), length := s.length }])

def pasteClipboard (grant : Option Block) (s : EditorState) : Option (EditorState × List Use) :=
  if s.clipboard.length ≤ 0 then some (setStatusMsg "Clipboard empty" s, [])
  else do
    let s ← saveUndoSnapshot grant s
    let pos := getBufferPos s
    let remaining := s.length - pos
    let n : Int := s.clipboard.length
    if s.length + n ≥ maxFileSize then some (setStatusMsg "No room to paste" s, [])
    else
      let m := memmoveLocal s.buffer (pos + n) pos remaining
      let m := copyTo m pos (bytesAt s.clipboard) 0 n
      let x := s.cursorX + Int32.ofInt n
      some (setStatusMsg "Pasted"
        { s with
          buffer := setByte m (s.length + n) 0
          length := s.length + n
          cursorX := x
          cursorXTarget := x
          dirty := true }, [{ pos := pos, length := s.length }])

/-! ### Searching -/

/-- `find_next` from a position on. -/
def findNext (s : EditorState) (needle : List UInt8) (startPos : Int) : Option Nat :=
  if needle = [] then none
  else
    (List.range s.length.toNat).find? fun i =>
      startPos ≤ i ∧ i + needle.length ≤ s.length ∧ ((text s).drop i).take needle.length = needle

/-- The scroll position that shows a line. -/
def scrollTo (y scroll : Int32) : Int32 :=
  let scroll := if y < scroll then y else scroll
  if y ≥ scroll + visibleHeight then y - visibleHeight + 1 else scroll

/-- The column and the line of a position, without wrapping. -/
def cellOf (s : EditorState) (found : Nat) : Nat × Nat :=
  ((text s).take found).foldl
    (fun (cell : Nat × Nat) c => if c = newline then (0, cell.2 + 1) else (cell.1 + 1, cell.2)) (0, 0)

def performSearch (s : EditorState) : EditorState :=
  if s.searchTerm = [] then setStatusMsg "No search term" { s with subMode := .normal }
  else
    match (findNext s s.searchTerm (getBufferPos s)).or (findNext s s.searchTerm 0) with
    | none => setStatusMsg "Not found" { s with subMode := .normal }
    | some found =>
      let (x, y) := cellOf s found
      setStatusMsg "Found"
        { s with
          cursorX := Int32.ofNat x
          cursorY := Int32.ofNat y
          cursorXTarget := Int32.ofNat x
          scrollY := scrollTo (Int32.ofNat y) s.scrollY
          subMode := .normal }

def isDigit (c : UInt8) : Bool := 48 ≤ c && c ≤ 57

def performGoto (s : EditorState) : EditorState :=
  let line : Int32 := (s.searchTerm.takeWhile isDigit).foldl
    (fun line c => line * 10 + Int32.ofNat (c.toNat - 48)) 0
  let line := if line < 1 then 1 else line
  let total := countLines s
  let line := if line > total then total else line
  { s with
    cursorY := line - 1
    cursorX := 0
    cursorXTarget := 0
    scrollY := scrollTo (line - 1) s.scrollY
    subMode := .normal }

/-! ### Saving and loading -/

/-- The answers while a file is saved: the path, the path after `fs_create`, which has its own answer,
and how much is written. -/
structure Saving where
  target : Target
  created : Int
  again : Target
  written : Int

/-- The descriptor that is written to. -/
def saveFd (saving : Saving) : Option Int :=
  if fsOpen saving.target = -1 then
    if saving.created ≠ 0 then none
    else if fsOpen saving.again = -1 then none
    else some (fsOpen saving.again)
  else some (fsOpen saving.target)

def saveFileInternal (saving : Saving) (s : EditorState) : EditorState :=
  if s.filename = [] then { s with saveStatus := .fail }
  else
    match saveFd saving with
    | none => { s with saveStatus := .fail }
    | some fd =>
      if fsWrite fd saving.written = s.length then
        { s with
          saveStatus := .ok
          dirty := false }
      else { s with saveStatus := .fail }

/-- What `start_editor` reads into the buffer. -/
def loadFile (target : Target) (buffer : Block) : Int × Block :=
  let fd := fsOpen target
  if fd ≠ -1 then
    let (n, bytes) := fsRead target fd (maxFileSize - 1).toNat
    (n, copyTo buffer 0 (bytesAt bytes) 0 bytes.length)
  else (0, buffer)

/-- `start_editor` on a state that has a buffer. -/
def openFile (filename : List UInt8) (target : Target) (s : EditorState) : EditorState :=
  let (length, buffer) := loadFile target s.buffer
  { s with
    filename := filename.take maxFilenameLen
    length := length
    buffer := setByte buffer length 0
    cursorX := 0
    cursorY := 0
    cursorXTarget := 0
    scrollY := 0
    saveStatus := .none
    quitConfirm := false
    dirty := false
    running := true
    subMode := .normal
    searchTerm := []
    statusMsg := ""
    undo := none }

/-- A state that was set to 0, with its buffer. -/
def fresh (buffer : Block) : EditorState :=
  { buffer := buffer
    length := 0
    filename := []
    cursorX := 0
    cursorXTarget := 0
    cursorY := 0
    scrollY := 0
    running := false
    dirty := false
    saveStatus := .none
    quitConfirm := false
    undo := none
    clipboard := []
    subMode := .normal
    searchTerm := []
    statusMsg := "" }

/-! ### Keys -/

/-- The answers of everything that a key can call. -/
structure Answers where
  saving : Saving
  grant : Option Block

section Keys

variable (key : UInt8) (answers : Answers) (s : EditorState)

/-- The prompts. A `char` is signed, so that the arrows are no characters for them. -/
def promptInput : EditorState :=
  if key = 0x1B then { s with subMode := .normal }
  else if key = newline then if s.subMode = .search then performSearch s else performGoto s
  else if key = 8 then { s with searchTerm := s.searchTerm.dropLast }
  else if 32 ≤ key ∧ key < 128 then
    if s.searchTerm.length < searchTermMax then { s with searchTerm := s.searchTerm ++ [key] } else s
  else s

def isYes : Bool := key == 121 || key == 89
def isNo : Bool := key == 110 || key == 78

def confirmInput : EditorState :=
  let s := if isYes key then saveFileInternal answers.saving s else s
  let s := { s with quitConfirm := false }
  if isYes key || isNo key then { s with running := false } else s

def quit : EditorState := if s.dirty then { s with quitConfirm := true } else { s with running := false }

def save : EditorState :=
  let s := saveFileInternal answers.saving s
  if s.saveStatus = .ok then setStatusMsg "Saved" { s with undo := none } else s

def newFile : EditorState :=
  setStatusMsg "New file"
    { s with
      length := 0
      buffer := setByte s.buffer 0 0
      cursorX := 0
      cursorY := 0
      cursorXTarget := 0
      scrollY := 0
      dirty := false
      filename := []
      undo := none }

def up : EditorState :=
  let y := s.cursorY - 1
  clampCursor
    { s with
      cursorY := if y < 0 then 0 else y
      cursorX := s.cursorXTarget }

def down : EditorState :=
  let y := s.cursorY + 1
  let total := countLines s
  clampCursor
    { s with
      cursorY := if y ≥ total then total - 1 else y
      cursorX := s.cursorXTarget }

def left : EditorState :=
  let (x, y) :=
    if s.cursorX > 0 then (s.cursorX - 1, s.cursorY)
    else if s.cursorY > 0 then (lineLength s (s.cursorY - 1), s.cursorY - 1)
    else (s.cursorX, s.cursorY)
  { s with
    cursorX := x
    cursorY := y
    cursorXTarget := x }

def right : EditorState :=
  let (x, y) :=
    if s.cursorX < lineLength s s.cursorY then (s.cursorX + 1, s.cursorY)
    else if s.cursorY + 1 < countLines s then (0, s.cursorY + 1)
    else (s.cursorX, s.cursorY)
  { s with
    cursorX := x
    cursorY := y
    cursorXTarget := x }

def toColumn (x : Int32) : EditorState :=
  { s with
    cursorX := x
    cursorXTarget := x }

def pageUp : EditorState :=
  let y := s.cursorY - visibleHeight / 2
  let s := clampCursor
    { s with
      cursorY := if y < 0 then 0 else y
      cursorX := s.cursorXTarget }
  { s with scrollY := s.cursorY }

def pageDown : EditorState :=
  let y := s.cursorY + visibleHeight / 2
  let total := countLines s
  let s := clampCursor
    { s with
      cursorY := if y ≥ total then total - 1 else y
      cursorX := s.cursorXTarget }
  { s with
    scrollY :=
      if s.cursorY ≥ s.scrollY + visibleHeight then s.cursorY - visibleHeight + 1 else s.scrollY }

/-! #### Editing -/

def backspace : Option (EditorState × List Use) := do
  let s ← saveUndoSnapshot answers.grant s
  let pos := getBufferPos s
  let use : Use := { pos := pos - 1, length := s.length }
  if pos > 0 then
    if s.cursorX > 0 then
      some (
        { bufferDeleteAt (pos - 1) s with
          cursorX := s.cursorX - 1
          cursorXTarget := s.cursorX - 1
          dirty := true }, [use])
    else if s.cursorY > 0 then
      let prevLen := lineLength s (s.cursorY - 1)
      some (
        { bufferDeleteAt (pos - 1) s with
          cursorY := s.cursorY - 1
          cursorX := prevLen
          cursorXTarget := prevLen
          dirty := true }, [use])
    else some ({ s with dirty := true }, [])
  else some (s, [])

/-- One pass of the loops that insert spaces. -/
def insertSpace : EditorState :=
  let inserted := bufferInsertChar (getBufferPos s) space s
  { inserted with cursorX := s.cursorX + 1 }

def insertSpaces : Nat → EditorState → EditorState × List Use
  | 0, s => (s, [])
  | n + 1, s =>
    let use : Use := { pos := getBufferPos s, length := s.length }
    let (s, uses) := insertSpaces n (insertSpace s)
    (s, use :: uses)

def getIndentCount (line : Int32) : Nat :=
  (((text s).drop (lineStart s line).toNat).take
    (lineEnd s line - lineStart s line).toNat).takeWhile (· = space) |>.length

def enter : Option (EditorState × List Use) := do
  let s ← saveUndoSnapshot answers.grant s
  let pos := getBufferPos s
  let indent := getIndentCount s s.cursorY
  let use : Use := { pos := pos, length := s.length }
  let (s, uses) := insertSpaces indent
    { bufferInsertChar pos newline s with
      cursorY := s.cursorY + 1
      cursorX := 0 }
  some (
    { s with
      cursorXTarget := s.cursorX
      dirty := true }, use :: uses)

def tab : Option (EditorState × List Use) := do
  let s ← saveUndoSnapshot answers.grant s
  let (s, uses) := insertSpaces tabSize s
  some (
    { s with
      cursorXTarget := s.cursorX
      dirty := true }, uses)

def printable : Option (EditorState × List Use) := do
  let s ← saveUndoSnapshot answers.grant s
  let pos := getBufferPos s
  let x := s.cursorX + 1
  let (x, y) := if x ≥ Int32.ofNat (editorWidth - 4) then (0, s.cursorY + 1) else (x, s.cursorY)
  some (
    { bufferInsertChar pos key s with
      cursorX := x
      cursorY := y
      cursorXTarget := x
      dirty := true }, [{ pos := pos, length := s.length }])

def quiet (s : EditorState) : Option (EditorState × List Use) := some (s, [])

/-- The keys outside of the prompts and the question. -/
def normalInput : Option (EditorState × List Use) :=
  let s :=
    { s with
      saveStatus := .none
      statusMsg := "" }
  if key = 0x11 then quiet (quit s)
  else if key = 0x13 then quiet (save answers s)
  -- the child that compiles the buffer only reads it
  else if key = 0x02 then quiet (saveFileInternal answers.saving s)
  else if key = 0x1A then quiet (performUndo s)
  else if key = 0x06 then
    quiet
      { s with
        subMode := .search
        searchTerm := [] }
  else if key = 0x07 then
    quiet
      { s with
        subMode := .goto
        searchTerm := [] }
  else if key = 0x0E then quiet (newFile s)
  else if key = 0x18 then (cutLine answers.grant s).map fun r => (clampCursor r.1, r.2)
  else if key = 0x03 then quiet (copyLine s)
  else if key = 0x16 then (pasteClipboard answers.grant s).map fun r => (clampCursor r.1, r.2)
  else if key = 0x80 then quiet (up s)
  else if key = 0x81 then quiet (down s)
  else if key = 0x82 then quiet (left s)
  else if key = 0x83 then quiet (right s)
  else if key = 0x84 then quiet (toColumn s 0)
  else if key = 0x86 then quiet (toColumn s (lineLength s s.cursorY))
  else if key = 0x85 then quiet (pageUp s)
  else if key = 0x87 then quiet (pageDown s)
  else if key = 8 then backspace answers s
  else if key = newline then enter answers s
  else if key = 9 then tab answers s
  else if 32 ≤ key ∧ key < 127 then printable key answers s
  else quiet s

def editorInput : Option (EditorState × List Use) :=
  if !s.running then quiet s
  else if s.subMode ≠ .normal then quiet (promptInput key s)
  else if s.quitConfirm then quiet (confirmInput key answers s)
  else normalInput key answers s

end Keys

/-! ### Runs -/

/-- Whether the state and its buffer have been allocated. -/
inductive Session where
  | absent
  | bare
  | opened (s : EditorState)

inductive Event where
  /-- `start_editor`; `kmalloc` has memory for the state or not, and for the buffer or not. -/
  | start (filename : List UInt8) (target : Target) (allocated : Bool) (grant : Option Block)
  | key (key : UInt8) (answers : Answers)

/-- The allocation of the buffer, if it is still missing. -/
def startEditor (filename : List UInt8) (target : Target) (grant : Option Block) : Session → Session
  | .opened s => .opened (openFile filename target s)
  | _ =>
    match grant with
    | none => .bare
    | some block => .opened (openFile filename target (fresh block))

/-- A step, with the positions that it uses; nothing when it faults. -/
def step (e : Session) : Event → Option (Session × List Use)
  | .start filename target allocated grant =>
    match e with
    | .absent =>
      if allocated then some (startEditor filename target grant e, []) else some (.absent, [])
    | e => some (startEditor filename target grant e, [])
  | .key key answers =>
    match e with
    | .opened s => (editorInput key answers s).map fun r => (.opened r.1, r.2)
    | e => some (e, [])

def run : Session → List Event → Option (Session × List Use)
  | e, [] => some (e, [])
  | e, event :: events => do
      let (e, uses) ← step e event
      let (e, rest) ← run e events
      some (e, uses ++ rest)

end JexOs.Editor
