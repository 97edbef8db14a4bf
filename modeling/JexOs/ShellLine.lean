import JexOs.Lib.Shift

/-!
# The line editor of the shell

`shell_input` and the history of `src/src/bin/shell.c`. Drawing the line changes nothing here. Enter runs a
command, which does not come back to the line, and while it edits a file the keys are not the shell's. Tab
looks for names and is left out.
-/

namespace JexOs.Shell

def shellBufferSize : Nat := 256

def histSize : Nat := 16

abbrev Chars := Nat → UInt8

structure ShellState where
  shellBuffer : Chars
  bufferLen : Int
  cursorPos : Int
  history : Nat → Chars
  histHead : Nat
  histCount : Nat
  histPos : Nat

def shellBoot : ShellState :=
  { shellBuffer := fun _ => 0
    bufferLen := 0
    cursorPos := 0
    history := fun _ _ => 0
    histHead := 0
    histCount := 0
    histPos := 0 }

/-- `while (src[i] && i < limit) { dst[i] = src[i]; i++; } dst[i] = '\0';` with `n` entries below the limit, and
the last `i`. -/
def copyChars (src : Chars) : Nat → Nat → Chars → Chars × Nat
  | 0, i, dst => (Function.update dst i 0, i)
  | n + 1, i, dst =>
    if src i = 0 then (Function.update dst i 0, i)
    else copyChars src n (i + 1) (Function.update dst i (src i))

/-! ### The history -/

/-- The row at `hist_head` is written. -/
def histPush (cmd : Chars) (s : ShellState) : ShellState :=
  { s with
    history := Function.update s.history s.histHead (copyChars cmd 255 0 (s.history s.histHead)).1
    histHead := (s.histHead + 1) % histSize
    histCount := if s.histCount < histSize then s.histCount + 1 else s.histCount }

def histAdd (cmd : Chars) (s : ShellState) : ShellState :=
  if cmd 0 = 0 then s
  else
    let s := histPush cmd s
    { s with histPos := s.histCount }

/-- The rows are those of the file, as far as it has been read. -/
def shellLoadHistory (rows : List Chars) (s : ShellState) : ShellState :=
  let s := (rows.take histSize).foldl (fun s buf => histPush (Function.update buf 255 0) s) s
  { s with histPos := s.histCount }

/-- `(hist_head - hist_count + hist_pos + HIST_SIZE) % HIST_SIZE` -/
def histIndex (s : ShellState) : Nat := (s.histHead + histSize - s.histCount + s.histPos) % histSize

def recallLine (s : ShellState) : ShellState :=
  let (buffer, i) := copyChars (s.history (histIndex s)) (shellBufferSize - 1) 0 s.shellBuffer
  { s with
    shellBuffer := buffer
    bufferLen := i
    cursorPos := i }

/-! ### The keys -/

def executeCommand (s : ShellState) : ShellState :=
  let s := if s.bufferLen > 0 then histAdd s.shellBuffer s else s
  { s with
    shellBuffer := fun i => if i < shellBufferSize then 0 else s.shellBuffer i
    bufferLen := 0
    cursorPos := 0 }

def historyBack (s : ShellState) : ShellState :=
  if s.histCount > 0 ∧ s.histPos > 0 then recallLine { s with histPos := s.histPos - 1 } else s

def historyForward (s : ShellState) : ShellState :=
  if s.histCount > 0 ∧ s.histPos < s.histCount then
    let s := { s with histPos := s.histPos + 1 }
    if s.histPos = s.histCount then
      { s with
        shellBuffer := Function.update s.shellBuffer 0 0
        bufferLen := 0
        cursorPos := 0 }
    else recallLine s
  else s

/-- The terminator moves along. -/
def eraseChar (s : ShellState) : ShellState :=
  if s.cursorPos > 0 then
    let start := s.cursorPos - 1
    { s with
      shellBuffer := Shift.close 1 (s.bufferLen - start).toNat start.toNat s.shellBuffer
      bufferLen := s.bufferLen - 1
      cursorPos := s.cursorPos - 1 }
  else s

def insertChar (key : UInt8) (s : ShellState) : ShellState :=
  if s.bufferLen < shellBufferSize - 1 then
    let buffer :=
      if s.cursorPos < s.bufferLen then
        Shift.expand s.cursorPos.toNat (s.bufferLen - s.cursorPos).toNat s.shellBuffer
      else s.shellBuffer
    let buffer := Function.update buffer s.cursorPos.toNat key
    { s with
      shellBuffer := Function.update buffer (s.bufferLen + 1).toNat 0
      bufferLen := s.bufferLen + 1
      cursorPos := s.cursorPos + 1 }
  else s

/-- The keys of the shell without Tab. -/
abbrev ShellKey := { key : UInt8 // key ≠ 0x09 }

def shellInput (s : ShellState) (key : ShellKey) : ShellState :=
  if key.val = 0x0C then s
  else if key.val = 0x0A then executeCommand s
  else if key.val = 0x82 then
    { s with cursorPos := if s.cursorPos > 0 then s.cursorPos - 1 else s.cursorPos }
  else if key.val = 0x83 then
    { s with cursorPos := if s.cursorPos < s.bufferLen then s.cursorPos + 1 else s.cursorPos }
  else if key.val = 0x80 then historyBack s
  else if key.val = 0x81 then historyForward s
  else if key.val = 0x08 then eraseChar s
  else insertChar key.val s

end JexOs.Shell
