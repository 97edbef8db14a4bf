import JexOs.Lib.Bitmap
import JexOs.Lib.Loop

/-!
# JexFS

The file system driver of `src/fs/jexfs.c`. The disk is a flat sequence of bytes of which the driver
reads and writes whole 1024-byte blocks; a sector holds the bytes last written to it. A call that
would read or write past one of the driver's block buffers is a fault, as is one that never returns.
-/

namespace JexOs.JexFs

open ByteMem Loop

inductive Errno where
  | enoent
  | eio
  | enotdir
  | einval
  | efbig
  | enospc
  | enametoolong
  deriving Repr, DecidableEq

inductive Fault where
  | outOfBounds
  | diverges
  deriving Repr, DecidableEq

/-- What a function of the driver returns: a non-negative `int`, or a negated error number. -/
abbrev Ret (α : Type) := Except Errno α

abbrev Name := List UInt8

/-- `(uint16_t)strlen(name)` -/
def nameLen (name : Name) : Nat := name.length % 65536

structure Superblock where
  magic : Nat
  totalBlocks : Nat
  totalInodes : Nat
  inodeBitmapStart : Nat
  blockBitmapStart : Nat
  bitmapBlocks : Nat
  inodeTableStart : Nat
  inodeSize : Nat
  dataStart : Nat
  deriving Repr, DecidableEq

def Superblock.decode (m : Mem) : Superblock :=
  { magic := load32 m 0
    totalBlocks := load32 m 4
    totalInodes := load32 m 8
    inodeBitmapStart := load32 m 12
    blockBitmapStart := load32 m 16
    bitmapBlocks := load32 m 20
    inodeTableStart := load32 m 24
    inodeSize := load32 m 28
    dataStart := load32 m 32 }

scoped instance eight : NeZero 8 := ⟨by decide⟩

scoped instance entries : NeZero 512 := ⟨by decide⟩

structure Inode where
  mode : UInt16
  uid : UInt16
  gid : UInt16
  size : UInt32
  atime : UInt32
  mtime : UInt32
  ctime : UInt32
  directBlocks : Fin 8 → UInt16
  indirectBlock : UInt16
  doubleIndirect : UInt16

/-- `memset(inode, 0, sizeof(*inode))` -/
def Inode.zero : Inode :=
  { mode := 0
    uid := 0
    gid := 0
    size := 0
    atime := 0
    mtime := 0
    ctime := 0
    directBlocks := fun _ => 0
    indirectBlock := 0
    doubleIndirect := 0 }

/-- The 42 bytes of the packed `struct jex_inode` at address `a`. -/
def Inode.decode (m : Mem) (a : Nat) : Inode :=
  { mode := UInt16.ofNat (load16 m a)
    uid := UInt16.ofNat (load16 m (a + 2))
    gid := UInt16.ofNat (load16 m (a + 4))
    size := UInt32.ofNat (load32 m (a + 6))
    atime := UInt32.ofNat (load32 m (a + 10))
    mtime := UInt32.ofNat (load32 m (a + 14))
    ctime := UInt32.ofNat (load32 m (a + 18))
    directBlocks := fun i => UInt16.ofNat (load16 m (a + 22 + 2 * i))
    indirectBlock := UInt16.ofNat (load16 m (a + 38))
    doubleIndirect := UInt16.ofNat (load16 m (a + 40)) }

def Inode.encode (inode : Inode) : Mem := fun k =>
  if k < 2 then byteOf inode.mode.toNat k
  else if k < 4 then byteOf inode.uid.toNat (k - 2)
  else if k < 6 then byteOf inode.gid.toNat (k - 4)
  else if k < 10 then byteOf inode.size.toNat (k - 6)
  else if k < 14 then byteOf inode.atime.toNat (k - 10)
  else if k < 18 then byteOf inode.mtime.toNat (k - 14)
  else if k < 22 then byteOf inode.ctime.toNat (k - 18)
  else if k < 38 then byteOf (inode.directBlocks (Fin.ofNat 8 ((k - 22) / 2))).toNat (k % 2)
  else if k < 40 then byteOf inode.indirectBlock.toNat (k - 38)
  else byteOf inode.doubleIndirect.toNat (k - 40)

/-- `JEXFS_TYPE_FILE | JEXFS_IRUSR | JEXFS_IWUSR | JEXFS_IRGRP | JEXFS_IROTH` -/
def fileMode : UInt16 := 0x1 ||| 0x8 ||| 0x10 ||| 0x40 ||| 0x200

/-- `JEXFS_TYPE_DIR` with read and execute for all and write for the user. -/
def dirMode : UInt16 := 0x2 ||| 0x8 ||| 0x10 ||| 0x20 ||| 0x40 ||| 0x100 ||| 0x200 ||| 0x800

/-- `(mode & JEXFS_TYPE_MASK) == JEXFS_TYPE_DIR` -/
def Inode.isDir (inode : Inode) : Bool := inode.mode &&& 0x7 == 0x2

def direntFile : UInt8 := 1
def direntDir : UInt8 := 2

def readBlock (d : Mem) (block : Nat) : Mem := fun k => d (1024 * block + k)

def writeBlock (d : Mem) (block : Nat) (buffer : Mem) : Mem := blit d (1024 * block) 1024 buffer

/-- A buffer cleared with `memset`. -/
def zeroBlock : Mem := fun _ => 0

/-! ## Bitmaps -/

/-- `none` is `-ENOSPC`; the disk is then unchanged. -/
def jexfsAllocBlock (sb : Superblock) (d : Mem) : Option (Nat × Mem) :=
  let bitmapBlock (i : Nat) := sb.blockBitmapStart + i / 8192
  -- the loop stops behind the last bitmap block or at the first clear bit
  let stops (i : Nat) := decide (bitmapBlock i ≥ sb.blockBitmapStart + sb.bitmapBlocks)
    || !Bitmap.test (readBlock d (bitmapBlock i)) (i % 8192)
  match (List.range' sb.dataStart (sb.totalBlocks - sb.dataStart)).find? stops with
  | none => none
  | some i =>
    if bitmapBlock i ≥ sb.blockBitmapStart + sb.bitmapBlocks then none
    else
      let buf := readBlock d (bitmapBlock i)
      some (i, writeBlock d (bitmapBlock i) (Bitmap.set buf (i % 8192)))

def jexfsFreeBlock (sb : Superblock) (d : Mem) (block : Nat) : Mem :=
  if block = 0 then d
  else
    let bitmapBlock := sb.blockBitmapStart + block / 8192
    writeBlock d bitmapBlock (Bitmap.clear (readBlock d bitmapBlock) (block % 8192))

/-- `none` is `-ENOSPC`; the disk is then unchanged. -/
def jexfsAllocInode (sb : Superblock) (d : Mem) : Option (Nat × Mem) :=
  let buf := readBlock d sb.inodeBitmapStart
  match (List.range' 1 (sb.totalInodes - 1)).find? (fun i => !Bitmap.test buf i) with
  | none => none
  | some i => some (i, writeBlock d sb.inodeBitmapStart (Bitmap.set buf i))

def jexfsFreeInode (sb : Superblock) (d : Mem) (idx : Nat) : Except Fault Mem :=
  if idx = 0 then .ok d
  else if 1024 ≤ idx / 8 then .error .outOfBounds
  else
    let buf := readBlock d sb.inodeBitmapStart
    .ok (writeBlock d sb.inodeBitmapStart (Bitmap.clear buf idx))

/-! ## The inode table -/

def jexfsReadInode (sb : Superblock) (d : Mem) (idx : Nat) : Except Fault Inode :=
  if sb.totalInodes ≤ idx then .ok Inode.zero
  else if 1024 < idx * 42 % 1024 + 42 then .error .outOfBounds
  else .ok (Inode.decode (readBlock d (sb.inodeTableStart + idx * 42 / 1024)) (idx * 42 % 1024))

def jexfsWriteInode (sb : Superblock) (d : Mem) (idx : Nat) (inode : Inode) : Except Fault Mem :=
  if sb.totalInodes ≤ idx then .ok d
  else if 1024 < idx * 42 % 1024 + 42 then .error .outOfBounds
  else
    let block := sb.inodeTableStart + idx * 42 / 1024
    .ok (writeBlock d block (blit (readBlock d block) (idx * 42 % 1024) 42 inode.encode))

/-! ## The block map -/

/-- Entry `i` of the table of block numbers in `block`. -/
def tableEntry (d : Mem) (block i : Nat) : Nat := load16 (readBlock d block) (2 * i)

def jexfsBmap (d : Mem) (inode : Inode) (lblock : Nat) : Nat :=
  if h : lblock < 8 then (inode.directBlocks ⟨lblock, h⟩).toNat
  else if lblock - 8 < 512 then
    if inode.indirectBlock = 0 then 0 else tableEntry d inode.indirectBlock.toNat (lblock - 8)
  else if inode.doubleIndirect = 0 then 0
  else
    let i1 := (lblock - 520) / 512
    let i2 := (lblock - 520) % 512
    if 512 ≤ i1 then 0
    else
      let l1 := tableEntry d inode.doubleIndirect.toNat i1
      if l1 = 0 then 0 else tableEntry d l1 i2

/-- The table `table` itself, or a cleared new one if there is none. -/
def ensureTable (sb : Superblock) (d : Mem) (table : UInt16) : Option (UInt16 × Mem) :=
  if table ≠ 0 then some (table, d)
  else
    match jexfsAllocBlock sb d with
    | none => none
    | some (nb, d) => some (UInt16.ofNat nb, writeBlock d nb zeroBlock)

def bmapAllocDirect (sb : Superblock) (d : Mem) (inode : Inode) (i : Fin 8) : Ret Nat × Inode × Mem :=
  match jexfsAllocBlock sb d with
  | none => (.error .enospc, inode, d)
  | some (nb, d) =>
    (.ok nb,
      { inode with directBlocks := Function.update inode.directBlocks i (UInt16.ofNat nb) }, d)

def bmapAllocIndirect (sb : Superblock) (d : Mem) (inode : Inode) (adj : Nat) : Ret Nat × Inode × Mem :=
  match ensureTable sb d inode.indirectBlock with
  | none => (.error .enospc, inode, d)
  | some (table, d) =>
    let inode := { inode with indirectBlock := table }
    let tbl := readBlock d table.toNat
    if load16 tbl (2 * adj) = 0 then
      match jexfsAllocBlock sb d with
      | none => (.error .enospc, inode, d)
      | some (nb, d) =>
        let tbl := store16 tbl (2 * adj) nb
        (.ok (load16 tbl (2 * adj)), inode, writeBlock d table.toNat tbl)
    else (.ok (load16 tbl (2 * adj)), inode, d)

/-- Brings the second-level table into the buffer, allocating it if need be. -/
def ensureSecond (sb : Superblock) (d : Mem) (table i1 : Nat) : Option (Mem × Mem) :=
  let l1 := readBlock d table
  if load16 l1 (2 * i1) = 0 then
    match jexfsAllocBlock sb d with
    | none => none
    | some (nb, d) =>
      let d := writeBlock d table (store16 l1 (2 * i1) nb)
      some (zeroBlock, writeBlock d nb zeroBlock)
  else some (readBlock d (load16 l1 (2 * i1)), d)

def bmapAllocDouble (sb : Superblock) (d : Mem) (inode : Inode) (adj : Nat) : Ret Nat × Inode × Mem :=
  let i1 := adj / 512
  let i2 := adj % 512
  if 512 ≤ i1 then (.error .efbig, inode, d)
  else
    match ensureTable sb d inode.doubleIndirect with
    | none => (.error .enospc, inode, d)
    | some (table, d) =>
      let inode := { inode with doubleIndirect := table }
      match ensureSecond sb d table.toNat i1 with
      | none => (.error .enospc, inode, d)
      | some (buf, d) =>
        if load16 buf (2 * i2) = 0 then
          match jexfsAllocBlock sb d with
          | none => (.error .enospc, inode, d)
          | some (nb, d) =>
            let buf := store16 buf (2 * i2) nb
            -- `l1` points into `buf`, so `l1[i1]` is by now an entry of the second level
            (.ok (load16 buf (2 * i2)), inode, writeBlock d (load16 buf (2 * i1)) buf)
        else (.ok (load16 buf (2 * i2)), inode, d)

def jexfsBmapAlloc (sb : Superblock) (d : Mem) (inode : Inode) (lblock : Nat) : Ret Nat × Inode × Mem :=
  if jexfsBmap d inode lblock ≠ 0 then (.ok (jexfsBmap d inode lblock), inode, d)
  else if h : lblock < 8 then bmapAllocDirect sb d inode ⟨lblock, h⟩
  else if lblock - 8 < 512 then bmapAllocIndirect sb d inode (lblock - 8)
  else bmapAllocDouble sb d inode (lblock - 520)

/-! ## Directories -/

/-- `jfs_memcmp(buf + pos, name, len) == 0`, which reads on only while the bytes agree. -/
def sameBytes (buf : Mem) : Nat → Name → Except Fault Bool
  | _, [] => .ok true
  | pos, c :: cs =>
    if 1024 ≤ pos then .error .outOfBounds
    else if buf pos = c then sameBytes buf (pos + 1) cs
    else .ok false

/-- The variables of the scan of a directory. Inside the inner loop, `block` holds the block that was
read and the offset in it. -/
structure Cursor where
  block : Option (Nat × Nat)
  off : Nat
  deriving Repr, DecidableEq

def Cursor.start : Cursor := { block := none, off := 0 }

/-- `uint16_t esz = 5 + de->name_len` behind the entry at offset `bo` of block `phys`. -/
def Cursor.skip (c : Cursor) (d : Mem) (phys bo : Nat) : Cursor :=
  let esz := (5 + load16 (readBlock d phys) (bo + 2)) % 65536
  { block := some (phys, bo + esz)
    off := c.off + esz }

/-- The entry at offset `bo` of `buf` has an inode and the name `name`. -/
def entryMatches (buf : Mem) (bo : Nat) (name : Name) : Except Fault Bool :=
  if load16 buf bo ≠ 0 ∧ load16 buf (bo + 2) = nameLen name then
    sameBytes buf (bo + 5) (name.take (nameLen name))
  else .ok false

/-- One turn of the loops with which `jexfs_find_entry`, `jexfs_remove` and `jexfs_rename` look for
a name. They leave with the block and offset of the entry, or with nothing. -/
def searchBody (d : Mem) (di : Inode) (name : Name)
    (c : Cursor) : Except Fault (Pass Cursor (Option (Nat × Nat))) :=
  match c.block with
  | none =>
    if c.off + 5 ≤ di.size.toNat then
      let phys := jexfsBmap d di (c.off / 1024)
      if phys = 0 then .ok (.leave none)
      else .ok (.again { c with block := some (phys, c.off % 1024) })
    else .ok (.leave none)
  | some (phys, bo) =>
    if bo + 5 ≤ 1024 ∧ c.off < di.size.toNat then
      let buf := readBlock d phys
      if load16 buf bo = 0 ∧ load16 buf (bo + 2) = 0 then .ok (.leave none)
      else do
        if ← entryMatches buf bo name then .ok (.leave (some (phys, bo)))
        else .ok (.again (c.skip d phys bo))
    else .ok (.again { c with block := none })

/-- A scan that ends takes at most three turns at each offset. -/
def scanFuel (di : Inode) : Nat := 3 * di.size.toNat + 4

def searchDir (d : Mem) (di : Inode) (name : Name) : Except Fault (Option (Nat × Nat)) :=
  run .diverges (searchBody d di name) (scanFuel di) Cursor.start

def jexfsFindEntry (sb : Superblock) (d : Mem) (dirIno : Nat) (name : Name) : Except Fault (Ret Nat) := do
  let di ← jexfsReadInode sb d dirIno
  if !di.isDir then return .error .enotdir
  match ← searchDir d di name with
  | none => return .error .enoent
  | some (phys, bo) => return .ok (load16 (readBlock d phys) bo)

/-- The variables of the scan of `jexfs_list_dir`, with what it has printed: the names, and whether
a `/` stands before each. -/
structure Listing where
  cursor : Cursor
  printed : List (Bool × Name)
  deriving Repr, DecidableEq

/-- What `jexfs_list_dir` prints for the entry at offset `bo` of `buf`: nothing where the entry is
deleted, or `.` or `..`. -/
def listedEntry (buf : Mem) (bo : Nat) : Except Fault (Option (Bool × Name)) :=
  let len := load16 buf (bo + 2)
  if load16 buf bo = 0 then .ok none
  else if 1024 < bo + 5 + len then .error .outOfBounds
  else
    let name := (List.range len).map fun k => buf (bo + 5 + k)
    if name = [46] ∨ name = [46, 46] then .ok none
    else .ok (some (buf (bo + 4) == direntDir, name))

/-- One turn of the loops of `jexfs_list_dir`. -/
def listBody (d : Mem) (di : Inode) (s : Listing) : Except Fault (Pass Listing (List (Bool × Name))) :=
  let c := s.cursor
  match c.block with
  | none =>
    if c.off + 5 ≤ di.size.toNat then
      let phys := jexfsBmap d di (c.off / 1024)
      if phys = 0 then .ok (.leave s.printed)
      else .ok (.again { s with cursor := { c with block := some (phys, c.off % 1024) } })
    else .ok (.leave s.printed)
  | some (phys, bo) =>
    if bo + 5 ≤ 1024 ∧ c.off < di.size.toNat then
      let buf := readBlock d phys
      if load16 buf bo = 0 ∧ load16 buf (bo + 2) = 0 then .ok (.leave s.printed)
      else do
        let entry ← listedEntry buf bo
        return .again
          { cursor := c.skip d phys bo
            printed := s.printed ++ entry.toList }
    else .ok (.again { s with cursor := { c with block := none } })

/-- The bytes of a directory entry. -/
def dirent (ino : Nat) (name : Name) (fileType : UInt8) : Mem := fun k =>
  if k < 2 then byteOf ino k
  else if k < 4 then byteOf (nameLen name) (k - 2)
  else if k = 4 then fileType
  else name.getD (k - 5) 0

/-- One turn of the loops with which `jexfs_add_dirent` looks for a slot for `len` bytes of name. -/
def slotBody (d : Mem) (di : Inode) (len : Nat) (c : Cursor) : Except Fault (Pass Cursor (Option Nat)) :=
  match c.block with
  | none =>
    if c.off + 5 ≤ di.size.toNat then
      let bo := c.off % 1024
      let phys := jexfsBmap d di (c.off / 1024)
      if 1024 < bo + (5 + len) ∨ phys = 0 then
        .ok (.again { c with off := (c.off + (1024 - bo)) % 2 ^ 32 })
      else .ok (.again { c with block := some (phys, bo) })
    else .ok (.leave none)
  | some (phys, bo) =>
    if bo + 5 ≤ 1024 ∧ c.off < di.size.toNat then
      let buf := readBlock d phys
      if load16 buf bo = 0 ∧ (load16 buf (bo + 2) = 0 ∨ len ≤ load16 buf (bo + 2)) then
        .ok (.leave (some c.off))
      else .ok (.again (c.skip d phys bo))
    else .ok (.again { c with block := none })

def findSlot (d : Mem) (di : Inode) (len : Nat) : Except Fault (Option Nat) :=
  run .diverges (slotBody d di len) (scanFuel di) Cursor.start

/-- `while (jexfs_bmap(&di, lb) != 0) lb++`, which ends at the latest behind the double-indirect
blocks. -/
def firstHole (d : Mem) (di : Inode) : Nat → Nat → Nat
  | 0, lb => lb
  | fuel + 1, lb => if jexfsBmap d di lb = 0 then lb else firstHole d di fuel (lb + 1)

/-- The code at `write_entry`. -/
def writeEntry (sb : Superblock) (d : Mem) (dirIno : Nat) (di : Inode) (foundOff entryIno : Nat)
    (name : Name) (fileType : UInt8) : Except Fault (Ret Unit × Mem) := do
  let bo := foundOff % 1024
  let phys := jexfsBmap d di (foundOff / 1024)
  if phys = 0 then return (.error .eio, d)
  let buf := readBlock d phys
  if 1024 < bo + (5 + nameLen name) then .error .outOfBounds
  let buf := blit buf bo (5 + nameLen name) (dirent entryIno name fileType)
  let newEnd := (foundOff + (5 + nameLen name)) % 2 ^ 32
  let d ← if di.size.toNat < newEnd
    then jexfsWriteInode sb d dirIno { di with size := UInt32.ofNat newEnd }
    else .ok d
  return (.ok (), writeBlock d phys buf)

/-- The new block of `jexfs_add_dirent`: the block linked into the directory is the one
`jexfs_bmap_alloc` takes, the one cleared is `nb`. -/
def growDir (sb : Superblock) (d : Mem) (dirIno : Nat)
    (di : Inode) : Except Fault (Ret (Nat × Inode) × Mem) := do
  match jexfsAllocBlock sb d with
  | none => return (.error .enospc, d)
  | some (nb, d) =>
    let lb := firstHole d di 262664 0
    match jexfsBmapAlloc sb d di lb with
    | (.error e, _, d) => return (.error e, jexfsFreeBlock sb d nb)
    | (.ok _, di, d) =>
      let di := if di.size.toNat < (lb + 1) * 1024
        then { di with size := UInt32.ofNat ((lb + 1) * 1024) }
        else di
      let d ← jexfsWriteInode sb d dirIno di
      return (.ok (lb * 1024, di), writeBlock d nb zeroBlock)

def jexfsAddDirent (sb : Superblock) (d : Mem) (dirIno entryIno : Nat) (name : Name)
    (fileType : UInt8) : Except Fault (Ret Unit × Mem) := do
  let di ← jexfsReadInode sb d dirIno
  if !di.isDir then return (.error .enotdir, d)
  match ← findSlot d di (nameLen name) with
  | some foundOff => writeEntry sb d dirIno di foundOff entryIno name fileType
  | none =>
    match ← growDir sb d dirIno di with
    | (.error e, d) => return (.error e, d)
    | (.ok (foundOff, di), d) => writeEntry sb d dirIno di foundOff entryIno name fileType

/-! ## Reading and writing files -/

structure ReadState where
  remain : Nat
  curr : Nat
  out : List UInt8

/-- One turn of the loop of `jexfs_read`. -/
def readBody (d : Mem) (inode : Inode) (s : ReadState) : Except Fault (Pass ReadState (List UInt8)) :=
  if s.remain = 0 then .ok (.leave s.out)
  else
    let bo := s.curr % 1024
    let chunk := min (1024 - bo) s.remain
    let phys := jexfsBmap d inode (s.curr / 1024)
    if phys = 0 then .ok (.leave s.out)
    else
      .ok (.again
        { remain := s.remain - chunk
          curr := (s.curr + chunk) % 2 ^ 32
          out := s.out ++ (List.range chunk).map fun k => readBlock d phys (bo + k) })

/-- The bytes copied to the caller's buffer; their number is what `jexfs_read` returns. -/
def jexfsRead (sb : Superblock) (d : Mem) (idx size offset : Nat) : Except Fault (List UInt8) := do
  let inode ← jexfsReadInode sb d idx
  if inode.size.toNat ≤ offset then return []
  let size := if inode.size.toNat < (offset + size) % 2 ^ 32
    then inode.size.toNat - offset
    else size
  run .diverges (readBody d inode) (size + 1) { remain := size, curr := offset, out := [] }

structure WriteState where
  remain : Nat
  curr : Nat
  inode : Inode
  disk : Mem

/-- One turn of the loop of `jexfs_write`. -/
def writeBody (sb : Superblock) (buffer : Mem) (size : Nat) (s : WriteState) :
    Except Fault (Pass WriteState (Ret Unit × WriteState)) :=
  if s.remain = 0 then .ok (.leave (.ok (), s))
  else
    let bo := s.curr % 1024
    let chunk := min (1024 - bo) s.remain
    match jexfsBmapAlloc sb s.disk s.inode (s.curr / 1024) with
    | (.error e, inode, d) => .ok (.leave (.error e, { s with inode := inode, disk := d }))
    | (.ok phys, inode, d) =>
      let buf := blit (readBlock d phys) bo chunk fun k => buffer (size - s.remain + k)
      .ok (.again
        { remain := s.remain - chunk
          curr := (s.curr + chunk) % 2 ^ 32
          inode := inode
          disk := writeBlock d phys buf })

def jexfsWrite (sb : Superblock) (d : Mem) (idx : Nat) (buffer : Mem) (size offset : Nat) :
    Except Fault (Ret Nat × Mem) := do
  let inode ← jexfsReadInode sb d idx
  match ← run .diverges (writeBody sb buffer size) (size + 1)
      { remain := size, curr := offset, inode := inode, disk := d } with
  | (.error e, s) =>
    if offset < s.curr then
      let inode := { s.inode with size := max s.inode.size (UInt32.ofNat s.curr) }
      return (.error e, ← jexfsWriteInode sb s.disk idx inode)
    else return (.error e, s.disk)
  | (.ok _, s) =>
    let newEnd := (offset + size) % 2 ^ 32
    let inode := if s.inode.size.toNat < newEnd
      then { s.inode with size := UInt32.ofNat newEnd }
      else s.inode
    return (.ok size, ← jexfsWriteInode sb s.disk idx inode)

/-! ## The calls -/

structure Fs where
  sb : Superblock
  disk : Mem
  cwd : Nat

def jexfsInit (fs : Fs) : Fs :=
  let sb := Superblock.decode (readBlock fs.disk 1)
  if sb.magic ≠ 0x4A455846 ∨ sb.inodeSize ≠ 42 then { fs with sb := sb }
  else { fs with sb := sb, cwd := 1 }

/-- The character `/`. -/
def slash : UInt8 := 47

def jexfsOpen (fs : Fs) (name : Name) : Except Fault (Ret Nat) :=
  match name with
  | [] => .ok (.ok fs.cwd)
  | c :: cs =>
    if c = slash then
      if cs = [] then .ok (.ok 1) else jexfsFindEntry fs.sb fs.disk 1 cs
    else jexfsFindEntry fs.sb fs.disk fs.cwd name

def jexfsCreate (fs : Fs) (name : Name) : Except Fault (Ret Nat × Fs) := do
  if name = [] then return (.error .einval, fs)
  if 255 < nameLen name then return (.error .enametoolong, fs)
  if let .ok existing := ← jexfsOpen fs name then return (.ok existing, fs)
  match jexfsAllocInode fs.sb fs.disk with
  | none => return (.error .enospc, fs)
  | some (ino, d) =>
    let d ← jexfsWriteInode fs.sb d ino { Inode.zero with mode := fileMode }
    match ← jexfsAddDirent fs.sb d fs.cwd ino name direntFile with
    | (.error e, d) => return (.error e, { fs with disk := ← jexfsFreeInode fs.sb d ino })
    | (.ok _, d) => return (.ok ino, { fs with disk := d })

/-- The first block of a new directory, with the entries `.` and `..`. -/
def dirBlock (ino parent : Nat) : Mem :=
  blit (blit zeroBlock 0 6 (dirent ino [46] direntDir)) 6 7 (dirent parent [46, 46] direntDir)

def jexfsMkdir (fs : Fs) (name : Name) : Except Fault (Ret Nat × Fs) := do
  if name = [] then return (.error .einval, fs)
  if 255 < nameLen name then return (.error .enametoolong, fs)
  match jexfsAllocInode fs.sb fs.disk with
  | none => return (.error .enospc, fs)
  | some (ino, d) =>
    match jexfsAllocBlock fs.sb d with
    | none => return (.error .enospc, { fs with disk := ← jexfsFreeInode fs.sb d ino })
    | some (blk, d) =>
      let d := writeBlock d blk (dirBlock ino fs.cwd)
      let inode := { Inode.zero with
        mode := dirMode
        size := 13
        directBlocks := Function.update Inode.zero.directBlocks 0 (UInt16.ofNat blk) }
      let d ← jexfsWriteInode fs.sb d ino inode
      match ← jexfsAddDirent fs.sb d fs.cwd ino name direntDir with
      | (.error e, d) =>
        let d ← jexfsFreeInode fs.sb d ino
        return (.error e, { fs with disk := jexfsFreeBlock fs.sb d blk })
      | (.ok _, d) => return (.ok 0, { fs with disk := d })

/-- Frees the blocks a table of block numbers lists, then the table itself. -/
def freeTable (sb : Superblock) (d : Mem) (table : Nat) : Mem :=
  let t := readBlock d table
  let d := (List.range 512).foldl (fun d i => jexfsFreeBlock sb d (load16 t (2 * i))) d
  jexfsFreeBlock sb d table

/-- The part of `jexfs_remove` that gives back the blocks of the inode. -/
def freeBlocks (sb : Superblock) (d : Mem) (inode : Inode) : Mem :=
  let d := (List.finRange 8).foldl (fun d i => jexfsFreeBlock sb d (inode.directBlocks i).toNat) d
  let d := if inode.indirectBlock = 0 then d else freeTable sb d inode.indirectBlock.toNat
  if inode.doubleIndirect = 0 then d
  else
    let l1 := readBlock d inode.doubleIndirect.toNat
    let d := (List.range 512).foldl
      (fun d i => if load16 l1 (2 * i) = 0 then d else freeTable sb d (load16 l1 (2 * i))) d
    jexfsFreeBlock sb d inode.doubleIndirect.toNat

def jexfsRemove (fs : Fs) (name : Name) : Except Fault (Ret Nat × Fs) := do
  if name = [] then return (.error .einval, fs)
  let di ← jexfsReadInode fs.sb fs.disk fs.cwd
  match ← searchDir fs.disk di name with
  | none => return (.error .enoent, fs)
  | some (phys, bo) =>
    let buf := readBlock fs.disk phys
    let ino := load16 buf bo
    let inode ← jexfsReadInode fs.sb fs.disk ino
    let d := freeBlocks fs.sb fs.disk inode
    let d ← jexfsFreeInode fs.sb d ino
    return (.ok 0, { fs with disk := writeBlock d phys (store16 buf bo 0) })

def jexfsRename (fs : Fs) (oldName newName : Name) : Except Fault (Ret Nat × Fs) := do
  let di ← jexfsReadInode fs.sb fs.disk fs.cwd
  match ← searchDir fs.disk di oldName with
  | none => return (.error .enoent, fs)
  | some (phys, bo) =>
    let buf := readBlock fs.disk phys
    if nameLen newName ≤ load16 buf (bo + 2) then
      let buf := blit (store16 buf (bo + 2) (nameLen newName)) (bo + 5) (nameLen newName)
        fun k => newName.getD k 0
      return (.ok 0, { fs with disk := writeBlock fs.disk phys buf })
    let savedIno := load16 buf bo
    let buf := store16 buf bo 0
    let d := writeBlock fs.disk phys buf
    match ← jexfsAddDirent fs.sb d fs.cwd savedIno newName direntFile with
    | (.error e, d) =>
      -- the name and its length are those the entry still has
      let buf := store16 (store16 buf bo savedIno) (bo + 2) (nameLen oldName)
      let buf := blit buf (bo + 5) (nameLen oldName) fun k => oldName.getD k 0
      return (.error e, { fs with disk := writeBlock d phys buf })
    | (.ok _, d) => return (.ok 0, { fs with disk := d })

end JexOs.JexFs
