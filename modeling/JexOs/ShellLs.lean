import JexOs.JexFs

/-!
# `ls`

`do_ls` of `src/bin/shell.c`. It reads the blocks of a directory and walks over the entries in them by
itself. What it prints is kept as a list of lines and names; a mode and a size stand for the texts that
`format_mode_str` and `format_size_str` make of them.
-/

namespace JexOs.Shell

open ByteMem JexFs

structure LsFlags where
  showAll : Bool
  longFmt : Bool
  human : Bool
  deriving Repr, DecidableEq

/-- The letters behind a dash, up to a space. -/
def lsLetters (f : LsFlags) : Name → LsFlags × Name
  | [] => (f, [])
  | c :: p =>
    if c = 32 then (f, c :: p)
    else if c = 97 then lsLetters { f with showAll := true } p
    else if c = 108 then lsLetters { f with longFmt := true } p
    else if c = 104 then lsLetters { f with human := true } p
    else lsLetters f p

/-- `while (*p == '-')`, which goes past one byte at least in every turn. -/
def lsFlags : Nat → LsFlags → Name → LsFlags × Name
  | fuel + 1, f, 45 :: p =>
    let (f, p) := lsLetters f p
    lsFlags fuel f (p.dropWhile (· = 32))
  | _, f, p => (f, p)

inductive LsItem where
  | missing (p : Name)
  | file (mode : UInt16) (size : UInt32) (human : Bool) (p : Name)
  | short (name : Name) (slash : Bool)
  | long (mode : UInt16) (size : UInt32) (human : Bool) (name : Name)
  deriving Repr, DecidableEq

/-- The entry of a directory that is printed, if the item is one. -/
def LsItem.name? : LsItem → Option Name
  | missing _ => none
  | file _ _ _ _ => none
  | short name _ => some name
  | long _ _ _ name => some name

/-- What is printed for the entry at `offset`. -/
def lsEntry (sb : Superblock) (d : Mem) (f : LsFlags) (buf : Mem) (offset : Nat) : Except Fault LsItem := do
  let nameLen := load16 buf (offset + 2)
  if 1024 < offset + 5 + nameLen then throw .outOfBounds
  let name := (List.range nameLen).map fun k => buf (offset + 5 + k)
  if !f.longFmt then return .short name (buf (offset + 4) == direntDir)
  let inode ← jexfsReadInode sb d (load16 buf offset)
  return .long inode.mode inode.size f.human name

/-- `is_dot || is_dotdot` -/
def isDots (buf : Mem) (offset : Nat) : Bool :=
  let nameLen := load16 buf (offset + 2)
  (nameLen == 1 && buf (offset + 5) == 46) ||
    (nameLen == 2 && buf (offset + 5) == 46 && buf (offset + 6) == 46)

/-- The walk over a block from `offset` on. Every turn goes past five bytes or ends in a fault, so 205
turns get to the end of the block. -/
def lsBlock (sb : Superblock) (d : Mem) (f : LsFlags) (buf : Mem) : Nat → Nat → Except Fault (List LsItem)
  | 0, _ => .error .diverges
  | fuel + 1, offset =>
    if 1024 ≤ offset then .ok []
    else if 1024 < offset + 2 then .error .outOfBounds
    else if load16 buf offset = 0 then .ok []
    else if 1024 < offset + 5 then .ok []
    else
      let esz := (5 + load16 buf (offset + 2)) % 65536
      if 1024 < offset + esz then .ok []
      else if !f.showAll && isDots buf offset then lsBlock sb d f buf fuel (offset + esz)
      else do
        let item ← lsEntry sb d f buf offset
        let items ← lsBlock sb d f buf fuel (offset + esz)
        return item :: items

/-- `for (int b = 0; b < JEXFS_DIRECT_COUNT; b++)`, from some `b` on. -/
def lsBlocks (sb : Superblock) (d : Mem) (f : LsFlags) (dirInode : Inode) :
    List (Fin 8) → Except Fault (List LsItem)
  | [] => .ok []
  | b :: bs =>
    if dirInode.directBlocks b = 0 then lsBlocks sb d f dirInode bs
    else do
      let items ← lsBlock sb d f (readBlock d (dirInode.directBlocks b).toNat) 206 0
      let rest ← lsBlocks sb d f dirInode bs
      return items ++ rest

def doLs (fs : Fs) (arg : Name) : Except Fault (List LsItem) := do
  let (f, p) := lsFlags arg.length { showAll := false, longFmt := false, human := false } arg
  let targetInode ← if p = [] then pure (.ok fs.cwd) else jexfsOpen fs p
  match targetInode with
  | .error _ => return [.missing p]
  | .ok targetInode =>
    let dirInode ← jexfsReadInode fs.sb fs.disk targetInode
    if !dirInode.isDir then return [.file dirInode.mode dirInode.size f.human p]
    lsBlocks fs.sb fs.disk f dirInode (List.finRange 8)

end JexOs.Shell
