import JexOs.JexFs

/-!
# mkjexfs

The host tool `tools/mkjexfs.c`, which packs the files of `rootfs/` into a JexFS image. The image is
one buffer of `block_count * 1024` bytes, the product taken in 32 bits; a store behind its end is a
fault. Opening, seeking and reading the files are taken to succeed.
-/

namespace JexOs.Mkjexfs

open ByteMem JexFs

/-- An entry that `readdir` delivers, with the contents of the file. -/
structure File where
  name : Name
  data : List UInt8

/-- The variables of `main` while it packs files. -/
structure Build where
  img : Mem
  nextInode : Nat
  nextDataBlock : Nat
  entryCount : Nat
  dirOff : Nat

def sysBlocks : Nat := 54
def inodeTableStart : Nat := 11
def dataStart : Nat := 54
def maxFileBlocks : Nat := 8
def totalInodes : Nat := 1032

section Image

variable (imageSize : Nat)

/-- `memcpy(img + a, src, n)` -/
def poke (img : Mem) (a n : Nat) (src : Mem) : Except Fault Mem :=
  if a + n ≤ imageSize then .ok (blit img a n src) else .error .outOfBounds

def bitmapSet (img : Mem) (blockStart index : Nat) : Except Fault Mem :=
  poke imageSize img (blockStart * 1024 + index / 8) 1
    fun _ => img (blockStart * 1024 + index / 8) ||| Bitmap.mask index

def inodeBitmapSet (img : Mem) (idx : Nat) : Except Fault Mem := bitmapSet imageSize img 2 idx

def blockBitmapSet (img : Mem) (idx : Nat) : Except Fault Mem := bitmapSet imageSize img 3 idx

/-- `inode_ptr(idx)` as an offset into the image. -/
def inodePtr (idx : Nat) : Nat := inodeTableStart * 1024 + idx * 42

def inodeInit (mode : UInt16) : Inode := { Inode.zero with mode := mode }

/-- Writes the entry at offset `offset` of the root directory's block. -/
def direntWrite (img : Mem) (offset inode : Nat) (name : Name) (fileType : UInt8) :
    Except Fault (Nat × Mem) := do
  let img ← poke imageSize img (dataStart * 1024 + offset) (5 + nameLen name)
    (dirent inode name fileType)
  return (offset + 5 + nameLen name, img)

/-- `root_inode->size = dir_off` -/
def setRootSize (img : Mem) (dirOff : Nat) : Except Fault Mem :=
  poke imageSize img (inodePtr 1 + 6) 4 (byteOf dirOff)

/-- The superblock's fields, in the order of `struct jex_superblock`. -/
def superblockFields (totalBlocks : Nat) : List Nat :=
  [0x4A455846, totalBlocks, totalInodes, 2, 3, 8, inodeTableStart, 42, dataStart]

def superblock (img : Mem) (totalBlocks : Nat) : Except Fault Mem :=
  poke imageSize img 1024 36
    fun k => byteOf ((superblockFields totalBlocks).getD (k / 4) 0) (k % 4)

/-- Block `b` of a file: its number is entered and marked, and `fread` copies what there is. -/
def packBlock (file : File) (s : Inode × Nat × Mem) (b : Nat) : Except Fault (Inode × Nat × Mem) := do
  let (inode, next, img) := s
  let inode := { inode with
    directBlocks := Function.update inode.directBlocks (Fin.ofNat 8 b) (UInt16.ofNat next) }
  let img ← blockBitmapSet imageSize img next
  let img ← poke imageSize img (next * 1024) (min 1024 (file.data.length - 1024 * b))
    fun k => file.data.getD (1024 * b + k) 0
  return (inode, next + 1, img)

/-- `(uint32_t)file_size`, clamped to the direct blocks. -/
def packedSize (file : File) : Nat := min (file.data.length % 2 ^ 32) (maxFileBlocks * 1024)

def blocksNeeded (file : File) : Nat := (packedSize file + 1023) / 1024

/-- The loop over `rootfs/`. -/
def packFiles (totalBlocks : Nat) : List File → Build → Except Fault Build
  | [], s => .ok s
  | file :: rest, s => do
      if file.name.head? = some 46 ∨ 512 ≤ 7 + file.name.length then packFiles totalBlocks rest s
      else if totalInodes ≤ s.nextInode then .ok s
      else if totalBlocks < s.nextDataBlock + blocksNeeded file then .ok s
      else
        let img ← inodeBitmapSet imageSize s.img s.nextInode
        let inode := { inodeInit fileMode with size := UInt32.ofNat (packedSize file) }
        let (inode, next, img) ← (List.range (blocksNeeded file)).foldlM (packBlock imageSize file)
          (inode, s.nextDataBlock, img)
        let img ← poke imageSize img (inodePtr s.nextInode) 42 inode.encode
        if 1024 < s.dirOff + 5 + file.name.length then
          -- the inode and its blocks stay marked, but the file gets no entry
          .ok { s with img := img, nextDataBlock := next }
        else
          let (dirOff, img) ← direntWrite imageSize img s.dirOff s.nextInode file.name direntFile
          let img ← setRootSize imageSize img dirOff
          packFiles totalBlocks rest
            { img := img
              nextInode := s.nextInode + 1
              nextDataBlock := next
              entryCount := s.entryCount + 1
              dirOff := dirOff }

/-- What `main` writes before it opens `rootfs/`. -/
def emptyImage (totalBlocks : Nat) : Except Fault Build := do
  let img ← superblock imageSize zeroBlock totalBlocks
  let img ← (List.range sysBlocks).foldlM (blockBitmapSet imageSize) img
  let img ← inodeBitmapSet imageSize img 0
  let img ← inodeBitmapSet imageSize img 1
  let root := { inodeInit dirMode with
    directBlocks := Function.update Inode.zero.directBlocks 0 (UInt16.ofNat dataStart) }
  let img ← poke imageSize img (inodePtr 1) 42 root.encode
  let img ← blockBitmapSet imageSize img dataStart
  let (dirOff, img) ← direntWrite imageSize img 0 1 [46] direntDir
  let (dirOff, img) ← direntWrite imageSize img dirOff 1 [46, 46] direntDir
  let img ← setRootSize imageSize img dirOff
  return { img := img, nextInode := 2, nextDataBlock := dataStart + 1, entryCount := 2,
           dirOff := dirOff }

end Image

/-- `none` when the block count is refused. -/
def mkjexfs (totalBlocks : Nat) (files : List File) : Except Fault (Option Build) := do
  if totalBlocks < 256 then return none
  let imageSize := totalBlocks * 1024 % 2 ^ 32
  let s ← emptyImage imageSize totalBlocks
  return some (← packFiles imageSize totalBlocks files s)

end JexOs.Mkjexfs
