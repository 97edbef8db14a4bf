import JexOs.Editor
import JexOs.Vfs

/-!
# Saving and loading files

`save_file_internal` and `start_editor` of `src/bin/editor.c` over the file descriptors and JexFS.
-/

namespace JexOs.Editor

open JexFs Vfs

/-- A negative `int` passed as `uint32_t`. -/
def asUnsigned (n : Int) : Nat := (n % 2 ^ 32).toNat

/-- The descriptor that is written to, if there is one. -/
def openForSaving (vfs : Vfs.State) (filename : Name) : Except Fault (Option Int × Vfs.State) := do
  let (fd, vfs) ← Vfs.fsOpen vfs filename
  if fd ≠ -1 then return (some fd, vfs)
  let (created, vfs) ← Vfs.fsCreate vfs filename
  if created ≠ 0 then return (none, vfs)
  let (fd, vfs) ← Vfs.fsOpen vfs filename
  if fd = -1 then return (none, vfs)
  return (some fd, vfs)

/-- `save_file_internal` on the state `s`, with what it returns. -/
def saveFile (vfs : Vfs.State) (s : EditorState) : Except Fault (Int × EditorState × Vfs.State) := do
  if s.filename = [] then return (-1, { s with saveStatus := .fail }, vfs)
  match ← openForSaving vfs s.filename with
  | (none, vfs) => return (-1, { s with saveStatus := .fail }, vfs)
  | (some fd, vfs) =>
    let (written, vfs) ← Vfs.fsWrite vfs fd (fun k => s.buffer k) (asUnsigned s.length)
    let vfs := Vfs.fsClose vfs fd
    if written = s.length then
      return (0, { s with
        saveStatus := .ok
        dirty := false }, vfs)
    else return (-1, { s with saveStatus := .fail }, vfs)

/-- The part of `start_editor` that loads the file into the buffer, with the length it sets. -/
def loadBuffer (vfs : Vfs.State) (filename : Name)
    (buffer : Block) : Except Fault ((Int × Block) × Vfs.State) := do
  let (fd, vfs) ← Vfs.fsOpen vfs filename
  if fd ≠ -1 then
    let ((length, bytes), vfs) ← Vfs.fsRead vfs fd (asUnsigned (maxFileSize - 1))
    return ((length, copyTo buffer 0 (bytesAt bytes) 0 bytes.length), Vfs.fsClose vfs fd)
  else return ((0, buffer), vfs)

/-- `start_editor` on a state that has a buffer. -/
def startOn (vfs : Vfs.State) (filename : Name)
    (s : EditorState) : Except Fault (EditorState × Vfs.State) := do
  let ((length, buffer), vfs) ← loadBuffer vfs filename s.buffer
  return ({ s with
    filename := filename.take maxFilenameLen
    length := length
    buffer := setByte buffer length 0
    cursorX := 0
    cursorY := 0
    cursorXTarget := 0
    scrollY := 0
    saveStatus := .none
    quitConfirm := false
    dirty := false
    running := true
    subMode := .normal
    searchTerm := []
    statusMsg := ""
    undo := none }, vfs)

end JexOs.Editor
