import JexOs.JexFs

/-!
# The file descriptors

`src/fs/fs.c` over JexFS. A mounted device file system is what its functions answer; a call that faults
in the driver faults here.
-/

namespace JexOs.Vfs

open JexFs

def errnoCode : Errno → Int
  | .enoent => 2
  | .eio => 5
  | .enotdir => 20
  | .einval => 22
  | .efbig => 27
  | .enospc => 28
  | .enametoolong => 36

/-- The `int` a function of the driver returns. -/
def retCode : Ret Nat → Int
  | .ok n => n
  | .error e => -errnoCode e

def ebadf : Int := 9
def enomem : Int := 12
def enodev : Int := 19

def maxOpenFiles : Nat := 32
def virtualFdStart : Int := 100

/-- A mount point with the answers of the functions registered for it. -/
structure Mount where
  path : Name
  openFile : Name → Int
  read : Int → Nat → Int × List UInt8
  write : Int → ByteMem.Mem → Nat → Int

/-- The fields of `file_descriptor_t` that are used; `inode` is `dir_entry_idx`. -/
structure FileDescriptor where
  used : Bool
  offset : Nat
  inode : Nat

structure State where
  mounts : List Mount
  fileTable : Fin maxOpenFiles → FileDescriptor
  fs : Fs

/-- `fs_find_mount`: the mount registered last goes first. -/
def fsFindMount (vfs : State) (path : Name) : Option Mount :=
  vfs.mounts.reverse.find? fun m => m.path.isPrefixOf path

def fsOpen (vfs : State) (filename : Name) : Except Fault (Int × State) := do
  match fsFindMount vfs filename with
  | some m => return (m.openFile filename, vfs)
  | none =>
    match (List.finRange maxOpenFiles).find? fun i => !(vfs.fileTable i).used with
    | none => return (-enomem, vfs)
    | some fd =>
      match ← jexfsOpen vfs.fs filename with
      | .error e => return (-errnoCode e, vfs)
      | .ok inodeIdx =>
        let descriptor : FileDescriptor :=
          { used := true
            offset := 0
            inode := inodeIdx }
        return (fd.val, { vfs with fileTable := Function.update vfs.fileTable fd descriptor })

def fsCreate (vfs : State) (filename : Name) : Except Fault (Int × State) := do
  let (r, fs) ← jexfsCreate vfs.fs filename
  return (retCode r, { vfs with fs := fs })

/-- The descriptor `fd`, if it is one of JexFS and open. -/
def descriptor (vfs : State) (fd : Int) : Option (Fin maxOpenFiles) :=
  if h : 0 ≤ fd ∧ fd < maxOpenFiles then
    let i : Fin maxOpenFiles := ⟨fd.toNat, by omega⟩
    if (vfs.fileTable i).used then some i else none
  else none

/-- `file_table[fd].offset += bytes`, if that is positive. -/
def advance (vfs : State) (i : Fin maxOpenFiles) (bytes : Int) : State :=
  if 0 < bytes then
    { vfs with
      fileTable := Function.update vfs.fileTable i
        { vfs.fileTable i with offset := ((vfs.fileTable i).offset + bytes.toNat) % 2 ^ 32 } }
  else vfs

/-- What is returned, and the bytes copied to the caller. -/
def fsRead (vfs : State) (fd : Int) (size : Nat) : Except Fault ((Int × List UInt8) × State) := do
  if virtualFdStart ≤ fd then
    match vfs.mounts.find? fun m => 0 ≤ (m.read fd size).1 with
    | some m => return (m.read fd size, vfs)
    | none => return ((-enodev, []), vfs)
  match descriptor vfs fd with
  | none => return ((-ebadf, []), vfs)
  | some i =>
    let bytes ← jexfsRead vfs.fs.sb vfs.fs.disk (vfs.fileTable i).inode size
      (vfs.fileTable i).offset
    return ((bytes.length, bytes), advance vfs i bytes.length)

def fsWrite (vfs : State) (fd : Int) (buffer : ByteMem.Mem) (size : Nat) : Except Fault (Int × State) := do
  if virtualFdStart ≤ fd then
    match vfs.mounts.find? fun m => 0 ≤ m.write fd buffer size with
    | some m => return (m.write fd buffer size, vfs)
    | none => return (-enodev, vfs)
  match descriptor vfs fd with
  | none => return (-ebadf, vfs)
  | some i =>
    let (r, disk) ← jexfsWrite vfs.fs.sb vfs.fs.disk (vfs.fileTable i).inode buffer size
      (vfs.fileTable i).offset
    return (retCode r, advance { vfs with fs := { vfs.fs with disk := disk } } i (retCode r))

def fsClose (vfs : State) (fd : Int) : State :=
  if h : 0 ≤ fd ∧ fd < maxOpenFiles then
    let i : Fin maxOpenFiles := ⟨fd.toNat, by omega⟩
    { vfs with fileTable := Function.update vfs.fileTable i { vfs.fileTable i with used := false } }
  else vfs

end JexOs.Vfs
