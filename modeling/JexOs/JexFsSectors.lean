import JexOs.JexFs

/-!
# The block bitmap of JexFS, sector by sector

`jexfs_alloc_block` and `jexfs_free_block` of `src/fs/jexfs.c` as they are written: a block is two sectors of the disk,
block and sector numbers are 32-bit values of which the drive takes 28 bits, and the scan keeps the bitmap block it
read last. What the buffer holds before the first read is given with the call.
-/

namespace JexOs.JexFs.Sectors

open ByteMem

/-- What `ide_read_sector` and `ide_write_sector` make of a sector number. -/
def sectorOf (lba : Nat) : Nat := lba % 2 ^ 32 % 2 ^ 28

def readBlock (d : Mem) (block : Nat) : Mem := fun k =>
  if k < 512 then d (512 * sectorOf (block * 2) + k)
  else d (512 * sectorOf (block * 2 + 1) + (k - 512))

def writeBlock (d : Mem) (block : Nat) (buffer : Mem) : Mem :=
  let d := blit d (512 * sectorOf (block * 2)) 512 buffer
  blit d (512 * sectorOf (block * 2 + 1)) 512 fun k => buffer (512 + k)

/-- `(int)bm_blk` -/
def asInt (block : Nat) : Int := if block < 2 ^ 31 then block else (block : Int) - 2 ^ 32

/-- `sb.block_bitmap_start + i / (BLOCK_SIZE * 8)` -/
def bitmapBlock (sb : Superblock) (i : Nat) : Nat := (sb.blockBitmapStart + i / 8192) % 2 ^ 32

/-- The loop of `jexfs_alloc_block`, with `n` blocks left: `buf` is `bmap_buf`. -/
def allocFrom (sb : Superblock) (d : Mem) : (n i : Nat) → (buf : Mem) → (lastRead : Int) → Option (Nat × Mem)
  | 0, _, _, _ => none
  | n + 1, i, buf, lastRead =>
    let bmBlk := bitmapBlock sb i
    if bmBlk ≥ (sb.blockBitmapStart + sb.bitmapBlocks) % 2 ^ 32 then none
    else
      let (buf, lastRead) :=
        if asInt bmBlk ≠ lastRead then (readBlock d bmBlk, asInt bmBlk) else (buf, lastRead)
      let bit := i % 8192
      if Bitmap.test buf bit then allocFrom sb d n (i + 1) buf lastRead
      else some (i, writeBlock d bmBlk (Bitmap.set buf bit))

/-- `none` is `-ENOSPC`; the disk is then unchanged. -/
def jexfsAllocBlock (sb : Superblock) (stack d : Mem) : Option (Nat × Mem) :=
  allocFrom sb d (sb.totalBlocks - sb.dataStart) sb.dataStart stack (-1)

def jexfsFreeBlock (sb : Superblock) (d : Mem) (block : Nat) : Mem :=
  if block = 0 then d
  else
    let bmBlk := bitmapBlock sb block
    writeBlock d bmBlk (Bitmap.clear (readBlock d bmBlk) (block % 8192))

/-- A call of one of the two. -/
inductive Op where
  | alloc (stack : Mem)
  | free (block : Nat)

/-- What the calls return, and the disk they leave. -/
def run (sb : Superblock) : Mem → List Op → List (Option Nat) × Mem
  | d, [] => ([], d)
  | d, .alloc stack :: ops =>
    match jexfsAllocBlock sb stack d with
    | none =>
      let (results, d) := run sb d ops
      (none :: results, d)
    | some (i, d) =>
      let (results, d) := run sb d ops
      (some i :: results, d)
  | d, .free block :: ops => run sb (jexfsFreeBlock sb d block) ops

end JexOs.JexFs.Sectors
