import JexOs.JexFsSectors
import JexOs.Lib.FirstFit
import JexOs.Proof.JexFsDisk

/-!
# The block bitmap is a set

The scan of the bitmap is a first-fit search for one free cell, and a sequence of calls does to the disk what it
does to the set of blocks that are in use.
-/

namespace JexOs.JexFs.Sectors

open ByteMem FirstFit Function Option Finset

section Places

variable {sb : Superblock} {d : Mem} {block i j k : Nat} {v : UInt8}

def place (block k : Nat) : Nat := 512 * sectorOf (block * 2 + k / 512) + k % 512

def diskBit (sb : Superblock) (i : Nat) : Nat := 8 * place (bitmapBlock sb i) (i % 8192 / 8) + i % 8

def blockBit (sb : Superblock) (d : Mem) (i : Nat) : Bool := Bitmap.test d (diskBit sb i)

theorem readBlock_eq (hk : k < 1024) : readBlock d block k = d (place block k) := by
  unfold readBlock place
  split
  · rw [Nat.div_eq_of_lt (by omega), Nat.mod_eq_of_lt (by omega), Nat.add_zero]
  · have hhalf : k / 512 = 1 := by omega
    have hrest : k % 512 = k - 512 := by omega
    rw [hhalf, hrest]

theorem place_inj {block' k' : Nat} (hnear : block < block' + 2 ^ 27) (hnear' : block' < block + 2 ^ 27)
    (hk : k < 1024) (hk' : k' < 1024) (h : place block k = place block' k') : block = block' ∧ k = k' := by
  unfold place sectorOf at h
  omega

theorem writeBlock_update (hk : k < 1024) :
    writeBlock d block (Function.update (readBlock d block) k v) = Function.update d (place block k) v := by
  have hbuffer : ∀ j, j < 1024 → Function.update (readBlock d block) k v j =
      Function.update d (place block k) v (place block j) := by
    intro j hj
    by_cases hjk : j = k
    · rw [hjk, update_self, update_self]
    · have hne : place block j ≠ place block k := fun h =>
        hjk (place_inj (by omega) (by omega) hj hk h).2
      rw [update_of_ne hjk, update_of_ne hne, readBlock_eq hj]
  funext a
  unfold writeBlock
  by_cases hsecond : 512 * sectorOf (block * 2 + 1) ≤ a ∧ a < 512 * sectorOf (block * 2 + 1) + 512
  · have ha : place block (512 + (a - 512 * sectorOf (block * 2 + 1))) = a := by
      unfold place
      rw [show (512 + (a - 512 * sectorOf (block * 2 + 1))) / 512 = 1 by omega]
      omega
    have hbyte := hbuffer (512 + (a - 512 * sectorOf (block * 2 + 1))) (by omega)
    rw [ha] at hbyte
    rw [blit_of_mem hsecond.1 hsecond.2]
    exact hbyte
  · have hout : ∀ m src, blit m (512 * sectorOf (block * 2 + 1)) 512 src a = m a := fun m src => by
      rcases lt_or_ge a (512 * sectorOf (block * 2 + 1)) with hlow | hhigh
      · exact blit_of_lt hlow
      · exact blit_of_ge (by omega)
    rw [hout]
    by_cases hfirst : 512 * sectorOf (block * 2) ≤ a ∧ a < 512 * sectorOf (block * 2) + 512
    · have ha : place block (a - 512 * sectorOf (block * 2)) = a := by
        unfold place
        rw [Nat.div_eq_of_lt (by omega), Nat.add_zero]
        omega
      have hbyte := hbuffer (a - 512 * sectorOf (block * 2)) (by omega)
      rw [ha] at hbyte
      rw [blit_of_mem hfirst.1 hfirst.2]
      exact hbyte
    · have hne : a ≠ place block k := by
        unfold place
        rcases lt_or_ge k 512 with hlow | hhigh
        · rw [Nat.div_eq_of_lt hlow, Nat.add_zero]
          omega
        · rw [show k / 512 = 1 by omega]
          omega
      rw [update_of_ne hne]
      rcases lt_or_ge a (512 * sectorOf (block * 2)) with hlow | hhigh
      · exact blit_of_lt hlow
      · exact blit_of_ge (by omega)

theorem diskBit_div (sb : Superblock)
    (i : Nat) : diskBit sb i / 8 = place (bitmapBlock sb i) (i % 8192 / 8) := by
  unfold diskBit
  omega

theorem mask_diskBit (sb : Superblock) (i : Nat) : Bitmap.mask (diskBit sb i) = Bitmap.mask (i % 8192) := by
  have hbit : diskBit sb i % 8 = i % 8192 % 8 := by
    unfold diskBit
    omega
  unfold Bitmap.mask
  rw [hbit]

theorem readBlock_diskBit (sb : Superblock) (d : Mem) (i : Nat) :
    readBlock d (bitmapBlock sb i) (i % 8192 / 8) = d (diskBit sb i / 8) := by
  rw [readBlock_eq (by omega), diskBit_div]

theorem test_readBlock (sb : Superblock) (d : Mem) (i : Nat) :
    Bitmap.test (readBlock d (bitmapBlock sb i)) (i % 8192) = blockBit sb d i := by
  unfold blockBit Bitmap.test
  rw [readBlock_diskBit, mask_diskBit]

theorem writeBlock_set (sb : Superblock) (d : Mem) (i : Nat) :
    writeBlock d (bitmapBlock sb i) (Bitmap.set (readBlock d (bitmapBlock sb i)) (i % 8192)) =
      Bitmap.set d (diskBit sb i) := by
  unfold Bitmap.set
  rw [writeBlock_update (by omega), readBlock_diskBit, mask_diskBit, diskBit_div]

theorem writeBlock_clear (sb : Superblock) (d : Mem) (i : Nat) :
    writeBlock d (bitmapBlock sb i) (Bitmap.clear (readBlock d (bitmapBlock sb i)) (i % 8192)) =
      Bitmap.clear d (diskBit sb i) := by
  unfold Bitmap.clear
  rw [writeBlock_update (by omega), readBlock_diskBit, mask_diskBit, diskBit_div]

theorem diskBit_inj (hi : i < 65536) (hj : j < 65536) (h : diskBit sb i = diskBit sb j) : i = j := by
  have hplace : place (bitmapBlock sb i) (i % 8192 / 8) = place (bitmapBlock sb j) (j % 8192 / 8) := by
    rw [← diskBit_div, ← diskBit_div, h]
  have hbit : i % 8 = j % 8 := by
    unfold diskBit at h
    omega
  unfold place sectorOf bitmapBlock at hplace
  omega

theorem blockBit_set (hi : i < 65536) (hj : j < 65536) :
    blockBit sb (Bitmap.set d (diskBit sb i)) j = (decide (j = i) || blockBit sb d j) := by
  unfold blockBit
  rw [Bitmap.test_set]
  congr 2
  exact propext ⟨diskBit_inj hj hi, fun h => h ▸ rfl⟩

theorem blockBit_clear (hi : i < 65536) (hj : j < 65536) :
    blockBit sb (Bitmap.clear d (diskBit sb i)) j = (!decide (j = i) && blockBit sb d j) := by
  unfold blockBit
  rw [Bitmap.test_clear]
  congr 3
  exact propext ⟨diskBit_inj hj hi, fun h => h ▸ rfl⟩

end Places

section Scan

variable {sb : Superblock} {d buf : Mem} {i n : Nat} {lastRead : Int}

def Cached (d buf : Mem) (lastRead : Int) : Prop :=
  lastRead = -1 ∨ ∃ block, block < 2 ^ 32 ∧ asInt block = lastRead ∧ buf = readBlock d block

theorem asInt_inj {block block' : Nat} (hlt : block < 2 ^ 32) (hlt' : block' < 2 ^ 32)
    (h : asInt block = asInt block') : block = block' := by
  unfold asInt at h
  split at h <;> split at h <;> omega

theorem asInt_ne {block : Nat} (hlt : block < 2 ^ 32 - 1) : asInt block ≠ -1 := by
  unfold asInt
  split <;> omega

def bitmapEnd (sb : Superblock) : Nat := (sb.blockBitmapStart + sb.bitmapBlocks) % 2 ^ 32

theorem bitmapBlock_below (hblocks : sb.bitmapBlocks = 8) (hfirst : bitmapBlock sb sb.dataStart < bitmapEnd sb)
    (hge : sb.dataStart ≤ i)
    (hi : i < 65536) : bitmapBlock sb i < bitmapEnd sb ∧ bitmapBlock sb i < 2 ^ 32 - 1 := by
  unfold bitmapBlock bitmapEnd at *
  omega

theorem allocFrom_eq (hblocks : sb.bitmapBlocks = 8) (hfirst : bitmapBlock sb sb.dataStart < bitmapEnd sb)
    (hge : sb.dataStart ≤ i) (hn : i + n ≤ 65536) (hcached : Cached d buf lastRead) :
    allocFrom sb d n i buf lastRead =
      (search (blockBit sb d) i (i + n) 1).map fun f => (f, Bitmap.set d (diskBit sb f)) := by
  induction n generalizing i buf lastRead with
  | zero =>
    have hnone : search (blockBit sb d) i (i + 0) 1 = none :=
      search_eq_none.mpr fun f hf hfits => absurd hfits.1 (by omega)
    rw [hnone]
    rfl
  | succ n ih =>
    obtain ⟨hbelow, hlast⟩ := bitmapBlock_below hblocks hfirst hge (show i < 65536 by omega)
    have hinside : ¬bitmapBlock sb i ≥ (sb.blockBitmapStart + sb.bitmapBlocks) % 2 ^ 32 :=
      Nat.not_le_of_lt hbelow
    have hread : (if asInt (bitmapBlock sb i) ≠ lastRead then
        (readBlock d (bitmapBlock sb i), asInt (bitmapBlock sb i)) else (buf, lastRead)) =
        (readBlock d (bitmapBlock sb i), asInt (bitmapBlock sb i)) := by
      split
      · rfl
      · rename_i hsame
        rw [not_not] at hsame
        rcases hcached with hfirst | ⟨block, hlt, hread, rfl⟩
        · exact absurd (hsame.trans hfirst) (asInt_ne hlast)
        · rw [asInt_inj (by omega) hlt (hsame.trans hread.symm), hread]
    have hcached' : Cached d (readBlock d (bitmapBlock sb i)) (asInt (bitmapBlock sb i)) :=
      .inr ⟨_, by omega, rfl, rfl⟩
    rw [allocFrom, if_neg hinside]
    rw [hread]
    dsimp only
    rw [test_readBlock]
    by_cases htaken : blockBit sb d i = true
    · rw [if_pos htaken, ih (by omega) (by omega) hcached', search_skip (Nat.le_succ i)]
      · rw [Nat.add_right_comm, Nat.add_assoc]
      · intro f hf hlt
        exact not_fits_of_taken (by omega) (by omega) htaken
    · rw [if_neg htaken, writeBlock_set, search_hit (fits_one (by omega) (Bool.not_eq_true _ ▸ htaken))]
      rfl

/-- The first block that is searched lies before the end of the bitmap, unless there is none to search. -/
def Searched (sb : Superblock) : Prop :=
      sb.dataStart < sb.totalBlocks → bitmapBlock sb sb.dataStart < bitmapEnd sb

theorem allocBlock_eq_search (hblocks : sb.bitmapBlocks = 8) (htotal : sb.totalBlocks ≤ 65536)
    (hsearched : Searched sb) (stack d : Mem) : jexfsAllocBlock sb stack d =
      (search (blockBit sb d) sb.dataStart sb.totalBlocks 1).map fun f =>
        (f, Bitmap.set d (diskBit sb f)) := by
  unfold jexfsAllocBlock
  rcases lt_or_ge sb.dataStart sb.totalBlocks with hlt | hle
  · rw [allocFrom_eq hblocks (hsearched hlt) le_rfl (by omega) (.inl rfl), Nat.add_sub_cancel' hlt.le]
  · have hnone : search (blockBit sb d) sb.dataStart sb.totalBlocks 1 = none :=
      search_eq_none.mpr fun f hf hfits => absurd hfits.1 (by omega)
    rw [Nat.sub_eq_zero_of_le hle, hnone]
    rfl

theorem allocBlock_unsearched (hsearched : ¬Searched sb)
    (stack d : Mem) : jexfsAllocBlock sb stack d = none := by
  obtain ⟨hlt, hend⟩ := Classical.not_imp.mp hsearched
  obtain ⟨n, hn⟩ : ∃ n, sb.totalBlocks - sb.dataStart = n + 1 := ⟨sb.totalBlocks - sb.dataStart - 1, by omega⟩
  unfold jexfsAllocBlock
  rw [hn, allocFrom]
  exact if_pos (Nat.le_of_not_lt hend)

end Scan

def used (sb : Superblock) (d : Mem) : Finset Nat :=
      (Finset.range 65536).filter fun i => blockBit sb d i = true

/-- What the calls return and leave when the bitmap is a set of blocks in use. Freeing block 0 does nothing. -/
def runSet (start stop : Nat) : Finset Nat → List Op → List (Option Nat) × Finset Nat
  | u, [] => ([], u)
  | u, .alloc _ :: ops =>
    match search (fun i => decide (i ∈ u)) start stop 1 with
    | none =>
      let (results, u) := runSet start stop u ops
      (none :: results, u)
    | some i =>
      let (results, u) := runSet start stop (insert i u) ops
      (some i :: results, u)
  | u, .free block :: ops => runSet start stop (if block = 0 then u else u.erase block) ops

def Legal (sb : Superblock) (op : Op) : Prop :=
  match op with
  | .alloc _ => True
  | .free block => sb.dataStart ≤ block ∧ block < 65536

/-- The allocator takes the lowest free block of the data area, freeing gives one back, and calls do with the disk
what they do with the set. -/
structure Behaves (sb : Superblock) : Prop where
  alloc : ∀ stack d i d', jexfsAllocBlock sb stack d = some (i, d') ↔
    sb.dataStart ≤ i ∧ i < sb.totalBlocks ∧ blockBit sb d i = false ∧
      (∀ j, sb.dataStart ≤ j → j < i → blockBit sb d j = true) ∧ d' = Bitmap.set d (diskBit sb i)
  full : ∀ stack d, jexfsAllocBlock sb stack d = none ↔
    ∀ i, sb.dataStart ≤ i → i < sb.totalBlocks → blockBit sb d i = true
  free : ∀ d b, sb.dataStart ≤ b → b < 65536 → b ≠ 0 → jexfsFreeBlock sb d b = Bitmap.clear d (diskBit sb b)
  free_zero : ∀ d, jexfsFreeBlock sb d 0 = d
  apart : ∀ i j, i < 65536 → j < 65536 → diskBit sb i = diskBit sb j → i = j
  runs : ∀ d ops, (∀ op ∈ ops, Legal sb op) →
    (run sb d ops).1 = (runSet sb.dataStart sb.totalBlocks (used sb d) ops).1 ∧
      used sb (run sb d ops).2 = (runSet sb.dataStart sb.totalBlocks (used sb d) ops).2

section Set

variable {sb : Superblock} {d : Mem} {b i : Nat}

theorem freeBlock_zero (d : Mem) : jexfsFreeBlock sb d 0 = d := if_pos rfl

theorem mem_used : i ∈ used sb d ↔ i < 65536 ∧ blockBit sb d i = true := by
  unfold used
  rw [mem_filter, mem_range]

theorem used_set (hb : b < 65536) : used sb (Bitmap.set d (diskBit sb b)) = insert b (used sb d) := by
  ext i
  rw [mem_used, mem_insert, mem_used]
  constructor
  · rintro ⟨hi, hset⟩
    rw [blockBit_set hb hi, Bool.or_eq_true, decide_eq_true_iff] at hset
    exact hset.imp_right fun h => ⟨hi, h⟩
  · rintro (rfl | ⟨hi, hset⟩)
    · exact ⟨hb, by rw [blockBit_set hb hb, decide_eq_true rfl, Bool.true_or]⟩
    · exact ⟨hi, by rw [blockBit_set hb hi, hset, Bool.or_true]⟩

theorem used_clear (hb : b < 65536) : used sb (Bitmap.clear d (diskBit sb b)) = (used sb d).erase b := by
  ext i
  rw [mem_used, mem_erase, mem_used]
  constructor
  · rintro ⟨hi, hset⟩
    rw [blockBit_clear hb hi, Bool.and_eq_true, Bool.not_eq_true', decide_eq_false_iff_not] at hset
    exact ⟨hset.1, hi, hset.2⟩
  · rintro ⟨hne, hi, hset⟩
    exact ⟨hi, by rw [blockBit_clear hb hi, hset, decide_eq_false hne]; rfl⟩

theorem lowest_one {taken : Nat → Bool} {start stop f : Nat} : Lowest taken start stop 1 f ↔
    start ≤ f ∧ f < stop ∧ taken f = false ∧ ∀ j, start ≤ j → j < f → taken j = true := by
  constructor
  · intro h
    refine ⟨h.ge, h.fits.1, h.fits.one, fun j hj hlt => ?_⟩
    by_contra hfree
    exact h.least j hj hlt (fits_one (hlt.trans h.fits.1) (Bool.not_eq_true _ ▸ hfree))
  · rintro ⟨hge, hlt, hfree, hbelow⟩
    refine ⟨hge, fits_one hlt hfree, fun j hj hjf hfits => ?_⟩
    have htaken := hbelow j hj hjf
    rw [hfits.one] at htaken
    cases htaken

theorem search_congr {taken taken' : Nat → Bool} {start stop : Nat}
    (h : ∀ j, j < stop → taken j = taken' j) : search taken start stop 1 = search taken' start stop 1 := by
  ext f
  rw [search_eq_some, search_eq_some, lowest_one, lowest_one]
  refine and_congr_right fun _ => and_congr_right fun hf => ?_
  rw [h f hf]
  exact and_congr_right fun _ => forall₂_congr fun j _ => by
    constructor
    · intro hj hlt
      exact (h j (hlt.trans hf)).symm.trans (hj hlt)
    · intro hj hlt
      exact (h j (hlt.trans hf)).trans (hj hlt)

theorem search_none_one {taken : Nat → Bool} {start stop : Nat} :
    search taken start stop 1 = none ↔ ∀ i, start ≤ i → i < stop → taken i = true := by
  rw [search_eq_none]
  constructor
  · intro h i hge hlt
    by_contra hfree
    exact h i hge (fits_one hlt (Bool.not_eq_true _ ▸ hfree))
  · intro h f hge hfits
    have htaken := h f hge hfits.1
    rw [hfits.one] at htaken
    cases htaken

theorem freeBlock_eq (hb : b ≠ 0) : jexfsFreeBlock sb d b = Bitmap.clear d (diskBit sb b) := by
  unfold jexfsFreeBlock
  rw [if_neg hb]
  exact writeBlock_clear sb d b

theorem search_used (htotal : sb.totalBlocks ≤ 65536) :
    search (fun i => decide (i ∈ used sb d)) sb.dataStart sb.totalBlocks 1 =
      search (blockBit sb d) sb.dataStart sb.totalBlocks 1 := by
  refine search_congr fun j hj => ?_
  rw [Bool.eq_iff_iff, decide_eq_true_iff, mem_used]
  exact and_iff_right (by omega)

variable (hblocks : sb.bitmapBlocks = 8) (htotal : sb.totalBlocks ≤ 65536) (hsearched : Searched sb)

include hblocks htotal hsearched

theorem run_eq (ops : List Op) (d : Mem) (hlegal : ∀ op ∈ ops, Legal sb op) :
    (run sb d ops).1 = (runSet sb.dataStart sb.totalBlocks (used sb d) ops).1 ∧
      used sb (run sb d ops).2 = (runSet sb.dataStart sb.totalBlocks (used sb d) ops).2 := by
  induction ops generalizing d with
  | nil => exact ⟨rfl, rfl⟩
  | cons op ops ih =>
    obtain ⟨hop, hrest⟩ := List.forall_mem_cons.mp hlegal
    cases op with
    | alloc stack =>
      have halloc := allocBlock_eq_search hblocks htotal hsearched stack d
      unfold run runSet
      rw [search_used htotal, halloc]
      cases hsearch : search (blockBit sb d) sb.dataStart sb.totalBlocks 1 with
      | none =>
        obtain ⟨hresults, hused⟩ := ih d hrest
        exact ⟨congrArg _ hresults, hused⟩
      | some i =>
        have hi := (lowest_one.mp (search_eq_some.mp hsearch)).2.1
        obtain ⟨hresults, hused⟩ := ih (Bitmap.set d (diskBit sb i)) hrest
        rw [used_set (by omega)] at hresults hused
        exact ⟨congrArg _ hresults, hused⟩
    | free block =>
      obtain ⟨-, hhigh⟩ : sb.dataStart ≤ block ∧ block < 65536 := hop
      have hsame := ih (jexfsFreeBlock sb d block) hrest
      unfold run runSet
      by_cases hzero : block = 0
      · rw [hzero, freeBlock_zero] at hsame
        rw [hzero, freeBlock_zero]
        exact hsame
      · rw [if_neg hzero]
        rw [freeBlock_eq hzero, used_clear hhigh] at hsame
        rw [freeBlock_eq hzero]
        exact hsame

theorem behaves_of_searched : Behaves sb where
  alloc := fun stack d i d' => by
    rw [allocBlock_eq_search hblocks htotal hsearched, map_eq_some_iff]
    constructor
    · rintro ⟨f, hsearch, heq⟩
      cases heq
      obtain ⟨hge, hlt, hfree, hbelow⟩ := lowest_one.mp (search_eq_some.mp hsearch)
      exact ⟨hge, hlt, hfree, hbelow, rfl⟩
    · rintro ⟨hge, hlt, hfree, hbelow, rfl⟩
      exact ⟨i, search_eq_some.mpr (lowest_one.mpr ⟨hge, hlt, hfree, hbelow⟩), rfl⟩
  full := fun stack d => by
    rw [allocBlock_eq_search hblocks htotal hsearched, map_eq_none_iff, search_none_one]
  free := fun d b _ _ hb => freeBlock_eq hb
  free_zero := freeBlock_zero
  apart := fun _ _ hi hj h => diskBit_inj hi hj h
  runs := fun d ops hlegal => run_eq hblocks htotal hsearched ops d hlegal

omit hsearched in
/-- **The bitmap allocator.** The bitmap behaves as a set of blocks exactly when the search begins before its 32-bit
end. -/
theorem behaves_iff : Behaves sb ↔ Searched sb := by
  refine ⟨fun h => ?_, behaves_of_searched hblocks htotal⟩
  by_contra hsearched
  obtain ⟨hlt, -⟩ := Classical.not_imp.mp hsearched
  have hset := (h.full (fun _ => 0) fun _ => 0).mp (allocBlock_unsearched hsearched _ _)
    sb.dataStart le_rfl hlt
  have hclear : blockBit sb (fun _ => 0) sb.dataStart = false := by
    unfold blockBit Bitmap.test
    rw [UInt8.zero_and]
    rfl
  rw [hclear] at hset
  cases hset

end Set

/-- On the disk that `mkfs.jexfs` lays out. -/
theorem behaves_iff_layout : Behaves (layout 65536) ↔ Searched (layout 65536) :=
  behaves_iff (by decide) (by decide)

/-- With block 0 in the data area it is not freed, and a bitmap that ends at block number 2 ^ 32 is never searched. -/
theorem not_behaves : jexfsFreeBlock { layout 65536 with dataStart := 0 } (fun _ => 0xFF) 0 ≠
        Bitmap.clear (fun _ => 0xFF) (diskBit { layout 65536 with dataStart := 0 } 0) ∧
      jexfsAllocBlock { layout 65536 with blockBitmapStart := 2 ^ 32 - 8 } (fun _ => 0) (fun _ => 0) = none ∧
      blockBit { layout 65536 with blockBitmapStart := 2 ^ 32 - 8 } (fun _ => 0) 54 = false := by
  refine ⟨fun h => ?_, allocBlock_unsearched (by unfold Searched; decide) _ _, by decide⟩
  have hbyte := congrFun h (diskBit { layout 65536 with dataStart := 0 } 0 / 8)
  revert hbyte
  decide

end JexOs.JexFs.Sectors
