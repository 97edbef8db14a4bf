import JexOs.Lib.BinarySearch
import JexOs.Lib.Bytes

/-!
# Kernel symbols

`tools/gen_kallsyms.c`, from the lines of `nm -n -S` to the bytes that are assembled, and
`src/kernel/kallsyms.c`, which looks an address up in them.
-/

namespace JexOs.Kallsyms

open ByteMem

/-! ### What `nm` prints -/

/-- The characters of symbol names: letters, digits, `_`, `.` and `$`. -/
def isWord (c : UInt8) : Bool :=
  (65 ≤ c && c ≤ 90) || (97 ≤ c && c ≤ 122) || (48 ≤ c && c ≤ 57) || c == 95 || c == 46 || c == 36

structure SymbolName where
  bytes : List UInt8
  nonempty : bytes ≠ []
  word : ∀ c ∈ bytes, isWord c = true

structure NmSymbol where
  addr : UInt32
  size : UInt32
  type : UInt8
  name : SymbolName

def NmSymbol.isText (s : NmSymbol) : Bool := s.type == 84 || s.type == 116

/-! ### The generator -/

/-- `symbol_t`. -/
structure Symbol where
  addr : UInt32
  size : UInt32
  name : List UInt8
deriving DecidableEq

def maxSymbols : Nat := 4096
def maxName : Nat := 255

/-- The loop over the lines. `nm` prints no size of 0, and then `sscanf` does not find four fields; nor
does it in the rest of a line that is longer than the buffer. -/
def readSymbols (lines : List NmSymbol) : List Symbol :=
  ((lines.filter fun s => s.isText && s.size != 0).take maxSymbols).map fun s =>
    { addr := s.addr
      size := s.size
      name := s.name.bytes.take maxName }

/-- `sym_cmp`: an unsigned difference as an `int`. -/
def symCmp (a b : Symbol) : Int := (a.addr - b.addr).toInt32.toInt

/-- The comparisons order the array, which `qsort` asks for. -/
structure Consistent (cmp : Symbol → Symbol → Int) (syms : List Symbol) : Prop where
  antisymm : ∀ a ∈ syms, ∀ b ∈ syms, cmp a b < 0 ↔ 0 < cmp b a
  trans : ∀ a ∈ syms, ∀ b ∈ syms, ∀ c ∈ syms, cmp a b ≤ 0 → cmp b c ≤ 0 → cmp a c ≤ 0

/-- What `qsort` may leave: any order, when the comparisons do not order the array. -/
structure Qsort (cmp : Symbol → Symbol → Int) (syms sorted : List Symbol) : Prop where
  perm : sorted.Perm syms
  order : Consistent cmp syms → sorted.Pairwise fun a b => cmp a b ≤ 0

/-- What is printed, without sections and labels. -/
inductive Directive where
  | long (v : Nat)
  | asciz (bytes : List UInt8)

def packSize (size : UInt32) : UInt32 :=
  let packed := (size + 15) / 16
  if packed > 255 then 255 else packed

/-- The two words of each symbol, with the offset of its name. -/
def printEntries : Nat → List Symbol → List Directive
  | _, [] => []
  | offset, s :: rest =>
    .long s.addr.toNat :: .long (offset % 2 ^ 24 + (packSize s.size).toNat * 2 ^ 24) ::
      printEntries (offset + (s.name.length + 1)) rest

def genKallsyms (sorted : List Symbol) : List Directive :=
  .long sorted.length :: (printEntries 0 sorted ++ sorted.map fun s => .asciz s.name)

def longBytes (v : Nat) : List UInt8 := [byteOf v 0, byteOf v 1, byteOf v 2, byteOf v 3]

def Directive.bytes : Directive → List UInt8
  | .long v => longBytes v
  | .asciz bytes => bytes ++ [0]

def assemble (directives : List Directive) : List UInt8 := directives.flatMap Directive.bytes

/-! ### The lookup -/

/-- The memory from `__kallsyms_start` on. -/
def memOf (bytes : List UInt8) : Mem := fun k => bytes.getD k 0

section Lookup

variable (m : Mem)

def symCount : Nat := load32 m 0

def entryAddr (i : Int) : UInt32 := UInt32.ofNat (load32 m (4 + 8 * i.toNat))
def entryNameOff (i : Int) : Nat := load32 m (4 + 8 * i.toNat + 4) % 2 ^ 24
def entrySize (i : Int) : UInt32 := UInt32.ofNat (load32 m (4 + 8 * i.toNat + 4) / 2 ^ 24)

/-- `sym_strings`. -/
def symStrings : Nat := 4 + 8 * symCount m

/-- A string, in at most so many bytes. -/
def cString : Nat → Nat → List UInt8
  | 0, _ => []
  | limit + 1, a => if m a = 0 then [] else m a :: cString limit (a + 1)

def funcSize (i : Int) : UInt32 := entrySize m i * 16

/-- The entry is the one that is returned. -/
def hit (addr : UInt32) (i : Int) : Bool :=
  addr ≥ entryAddr m i && addr < entryAddr m i + funcSize m i

structure Found where
  name : List UInt8
  offset : UInt32
  size : UInt32
deriving DecidableEq, Repr

/-- `kallsyms_lookup`, with the section that the table is in; nothing stands for `"Unknown"`. -/
def kallsymsLookup (addr : UInt32) (limit : Nat) : Option Found := do
  let i ← BinarySearch.search (hit m addr) (fun mid => decide (addr < entryAddr m mid)) (symCount m) 0
    (symCount m - 1)
  some
    { name := cString m limit (symStrings m + entryNameOff m i)
      offset := addr - entryAddr m i
      size := funcSize m i }

end Lookup

/-- The lookup in the table that the generator has printed. -/
def lookupIn (sorted : List Symbol) (addr : UInt32) : Option Found :=
  let bytes := assemble (genKallsyms sorted)
  kallsymsLookup (memOf bytes) addr bytes.length

end JexOs.Kallsyms
