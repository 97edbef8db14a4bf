import JexOs.Paging

/-!
# Executables

`generate_elf32` of `src/bin/tcc.c` and the loader `src/kernel/elf.c`. An executable file in memory
is a function from offsets to bytes: the loader only reads it, and it lies in the kernel heap, outside
the pages that the loader maps. Pointers into it wrap around at 32 bits. What the loader prints is
left out.
-/

namespace JexOs.Elf

open ByteMem (Mem blit load16 load32 store16 store32)
open Paging (Machine allocBlock mapPage)

def word32 (n : Nat) : Nat := n % 4294967296

/-! ### Bytes behind the page tables -/

/-- `b` in place of byte `i` of the word. -/
def setByte (word i b : Nat) : Nat := word / 256 ^ (i + 1) * 256 ^ (i + 1) + b * 256 ^ i + word % 256 ^ i

def loadByte (m : Machine) (va : Nat) : Option UInt8 :=
  (m.translate va).map fun (frame, w) => ByteMem.byteOf (m.phys frame w) (va % 4)

def storeByte (m : Machine) (va : Nat) (b : UInt8) : Option Machine :=
  (m.translate va).map fun (frame, w) => m.set frame w (setByte (m.phys frame w) (va % 4) b.toNat)

/-- `memcpy(dst, src, n)` from outside the machine's memory, and with a constant source `memset`. -/
def copyBytes (m : Machine) (dst n : Nat) (src : Mem) : Option Machine :=
  (List.range n).foldlM (fun m k => storeByte m (word32 (dst + k)) (src k)) m

/-- A `uint32_t` at any address. -/
def loadWord (m : Machine) (va : Nat) : Option Nat := do
  let b₀ ← loadByte m va
  let b₁ ← loadByte m (word32 (va + 1))
  let b₂ ← loadByte m (word32 (va + 2))
  let b₃ ← loadByte m (word32 (va + 3))
  some (b₀.toNat + 256 * b₁.toNat + 65536 * b₂.toNat + 16777216 * b₃.toNat)

def storeWord (m : Machine) (va v : Nat) : Option Machine := copyBytes m va 4 (ByteMem.byteOf v)

/-! ### Writing a file -/

def elfHeaderSize : Nat := 52
def programHeaderSize : Nat := 32

/-- `"\x7F" "ELF" "\x01\x01\x01\x00"`. -/
def elfIdent (k : Nat) : UInt8 := [0x7F, 0x45, 0x4C, 0x46, 0x01, 0x01, 0x01, 0x00].getD k 0

/-- The file in the buffer that `kmalloc` returned, with what was in it before, and its size. -/
def generateElf32 (code : Mem) (codeSize : Nat) (buf : Mem) : Mem × Nat :=
  let buf := blit buf 0 8 elfIdent
  let buf := blit buf 8 8 fun _ => 0
  let buf := store16 buf 16 2
  let buf := store16 buf 18 3
  let buf := store32 buf 20 1
  let buf := store32 buf 24 0x08048080
  let buf := store32 buf 28 52
  let buf := store32 buf 32 0
  let buf := store32 buf 36 0
  let buf := store16 buf 40 52
  let buf := store16 buf 42 32
  let buf := store16 buf 44 1
  let buf := store16 buf 46 0
  let buf := store16 buf 48 0
  let buf := store16 buf 50 0
  let buf := store32 buf 52 1
  let buf := store32 buf 56 (52 + 32)
  let buf := store32 buf 60 0x08048080
  let buf := store32 buf 64 0x08048080
  let buf := store32 buf 68 codeSize
  let buf := store32 buf 72 codeSize
  let buf := store32 buf 76 7
  let buf := store32 buf 80 4096
  (blit buf 84 codeSize code, elfHeaderSize + programHeaderSize + codeSize)

/-! ### Headers -/

def ptLoad : Nat := 1
def etRel : Nat := 1
def etExec : Nat := 2
def em386 : Nat := 3
def shtSymtab : Nat := 2
def shtRela : Nat := 4
def shtRel : Nat := 9

/-- The fields of `Elf32_Ehdr` that the loader reads. -/
structure Ehdr where
  type : Nat
  machine : Nat
  entry : Nat
  phoff : Nat
  shoff : Nat
  flags : Nat
  phentsize : Nat
  phnum : Nat
  shnum : Nat
  shstrndx : Nat

def ehdrAt (elf : Mem) : Ehdr :=
  { type := load16 elf 16
    machine := load16 elf 18
    entry := load32 elf 24
    phoff := load32 elf 28
    shoff := load32 elf 32
    flags := load32 elf 36
    phentsize := load16 elf 42
    phnum := load16 elf 44
    shnum := load16 elf 48
    shstrndx := load16 elf 50 }

structure Phdr where
  type : Nat
  offset : Nat
  vaddr : Nat
  filesz : Nat
  memsz : Nat
  flags : Nat

def phdrAt (elf : Mem) (a : Nat) : Phdr :=
  { type := load32 elf a
    offset := load32 elf (a + 4)
    vaddr := load32 elf (a + 8)
    filesz := load32 elf (a + 16)
    memsz := load32 elf (a + 20)
    flags := load32 elf (a + 24) }

structure Shdr where
  name : Nat
  type : Nat
  offset : Nat
  size : Nat
  link : Nat
  entsize : Nat

def shdrAt (elf : Mem) (h : Ehdr) (i : Nat) : Shdr :=
  let a := word32 (h.shoff + 40 * i)
  { name := load32 elf a
    type := load32 elf (a + 4)
    offset := load32 elf (a + 16)
    size := load32 elf (a + 20)
    link := load32 elf (a + 24)
    entsize := load32 elf (a + 36) }

/-! ### Relocations -/

/-- The next characters are those of `needle`. -/
def startsWith (elf : Mem) : Nat → List UInt8 → Bool
  | _, [] => true
  | a, c :: needle => elf (word32 a) = c && startsWith elf (a + 1) needle

/-- `strstr(a, needle) != NULL`, where no string is longer than the address space. -/
def strstr (elf : Mem) (needle : List UInt8) : (fuel a : Nat) → Bool
  | 0, _ => false
  | fuel + 1, a =>
    if elf (word32 a) = 0 then false
    else startsWith elf a needle || strstr elf needle fuel (a + 1)

/-- `.rel.` -/
def relPattern : List UInt8 := [0x2E, 0x72, 0x65, 0x6C, 0x2E]

def applyRelocation (m : Machine) (relocAddr symAddr type : Nat) : Option Machine :=
  if type = 1 then do
    storeWord m relocAddr (word32 ((← loadWord m relocAddr) + symAddr))
  else if type = 2 then do
    storeWord m relocAddr
      (word32 ((← loadWord m relocAddr) + (symAddr + (4294967296 - relocAddr))))
  else some m

/-- The value of a symbol, 0 when it has none. -/
def resolveSymbol (elf : Mem) (h : Ehdr) (symtab : Option Shdr) (symIdx : Nat) : Nat :=
  match symtab with
  | none => 0
  | some tab =>
    if 0 < tab.entsize ∧ symIdx < tab.size / tab.entsize then
      let a := word32 (tab.offset + 16 * symIdx)
      if load32 elf a < (shdrAt elf h tab.link).size ∧ load16 elf (a + 14) ≠ 0 then
        load32 elf (a + 4)
      else 0
    else 0

/-- The entries of one relocation section; `n` are left, from `j` on. -/
def relocateEntries (elf : Mem) (h : Ehdr) (symtab : Option Shdr) (offset : Nat) :
    (n j : Nat) → Machine → Option Machine
  | 0, _, m => some m
  | n + 1, j, m => do
      let a := word32 (offset + 8 * j)
      let info := load32 elf (a + 4)
      let symAddr := resolveSymbol elf h symtab (info / 256)
      let m ← if symAddr = 0 then some m else applyRelocation m (load32 elf a) symAddr (info % 256)
      relocateEntries elf h symtab offset n (j + 1) m

/-- The loop over the sections; `n` are left, from `i` on. -/
def relocateSections (elf : Mem) (h : Ehdr) (symtab : Option Shdr) : (n i : Nat) → Machine → Option Machine
  | 0, _, m => some m
  | n + 1, i, m => do
      let strtab := shdrAt elf h h.shstrndx
      let s := shdrAt elf h i
      let last := word32 (h.shoff + h.shnum * 40 + 1)
      let skip := s.name ≥ strtab.size ∨ ¬(s.type = shtRel ∨ s.type = shtRela) ∨
        strstr elf relPattern 4294967296 (strtab.offset + s.name) = false ∨
        word32 (s.offset + s.size) > last ∨ s.entsize = 0
      -- `rel_count` is an `int`, negative from 2^31 on
      let count := if s.size / s.entsize < 2147483648 then s.size / s.entsize else 0
      let m ← if skip then some m else relocateEntries elf h symtab s.offset count 0 m
      relocateSections elf h symtab n (i + 1) m

def handleRelocations (elf : Mem) (h : Ehdr) (m : Machine) : Option Machine :=
  let strtab := shdrAt elf h h.shstrndx
  let symtab := ((List.range h.shnum).map (shdrAt elf h)).find? fun s => s.type = shtSymtab
  if word32 (strtab.offset + strtab.size) > word32 (h.shoff + h.shnum * 40 + 1) then some m
  else relocateSections elf h symtab h.shnum 0 m

/-! ### Loading -/

def phdrFlagsToPte (flags : Nat) : Nat :=
  1 + (if flags / 4 % 2 = 1 then 4 else 0) + (if flags / 2 % 2 = 1 then 2 else 0)

/-- Frames for `n` pages from `addr` on. The flag tells whether all could be had. -/
def mapSegment (flags : Nat) : (n addr : Nat) → Machine → Option (Bool × Machine)
  | 0, _, m => some (true, m)
  | n + 1, addr, m => do
      let (frame, m) := allocBlock m
      if frame = 0 then some (false, m)
      else
        let (r, m) ← mapPage m frame addr flags
        if r < 0 then some (false, { m with pmm := Pmm.pmmFreeBlock m.pmm frame })
        else mapSegment flags n (addr + 4096) m

/-- A segment of type `PT_LOAD`: the flag is false where the loader returns 0. -/
def loadSegment (elf : Mem) (p : Phdr) (m : Machine) : Option (Bool × Machine) :=
  if p.filesz > p.memsz then some (false, m)
  else do
    let startPage := p.vaddr / 4096 * 4096
    let endPage := word32 (p.vaddr + p.memsz + 4095) / 4096 * 4096
    let (done, m) ← mapSegment (phdrFlagsToPte p.flags) ((endPage - startPage) / 4096) startPage m
    if !done then some (false, m)
    else
      let m ← copyBytes m p.vaddr p.filesz fun k => elf (word32 (p.offset + k))
      let m ← copyBytes m (p.vaddr + p.filesz) (p.memsz - p.filesz) fun _ => 0
      some (true, m)

/-- The loop over the program headers; `n` are left, from `i` on. -/
def loadSegments (elf : Mem) (h : Ehdr) : (n i : Nat) → Machine → Option (Bool × Machine)
  | 0, _, m => some (true, m)
  | n + 1, i, m => do
      let p := phdrAt elf (word32 (h.phoff + i * h.phentsize))
      let (done, m) ← if p.type = ptLoad then loadSegment elf p m else some (true, m)
      if done then loadSegments elf h n (i + 1) m else some (false, m)

/-- The entry point, or 0. -/
def elfLoadWithArgs (elf : Mem) (m : Machine) : Option (Nat × Machine) :=
  let h := ehdrAt elf
  if elf 0 ≠ 0x7F ∨ elf 1 ≠ 0x45 ∨ elf 2 ≠ 0x4C ∨ elf 3 ≠ 0x46 then some (0, m)
  else if elf 4 ≠ 1 ∨ elf 5 ≠ 1 ∨ h.machine ≠ em386 then some (0, m)
  else if h.shoff ≠ 0 ∧ word32 (h.phoff + h.phnum * h.phentsize) > h.shoff then some (0, m)
  else do
    let (done, m) ← loadSegments elf h h.phnum 0 m
    if !done then some (0, m)
    else if h.type = etExec then some (h.entry, m)
    else if h.type = etRel ∨ h.flags % 2 = 1 then do
      some (h.entry, ← handleRelocations elf h m)
    else some (h.entry, m)

end JexOs.Elf
