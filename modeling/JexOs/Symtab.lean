import JexOs.Lib.X86

/-!
# The symbol table of the compiler

`src/bin/symtab.c`. The table is an array of 256 entries; an entry with scope level -1 is empty.
The compiler enters every symbol at scope level 1; the functions that open and close scopes are at the end.
-/

namespace JexOs.Tcc

open X86 (Byte)

/-- The characters of a C string, without the terminator. -/
abbrev CString := List Byte

def cstring (s : String) : CString := s.toList.map fun c => BitVec.ofNat 8 c.toNat

inductive SymType where
  | int | char | void | ptr | func | array | undef
deriving DecidableEq, Repr

structure Symbol where
  name : CString
  type : SymType
  baseType : SymType
  offset : Int
  scopeLevel : Int
  arraySize : Int
deriving DecidableEq, Repr

structure Symtab where
  entries : List Symbol
  nextFree : Nat
deriving DecidableEq, Repr

def symTableSize : Nat := 256
def symNameMax : Nat := 32

/-- `strncpy` to a field of `n` characters. When the source does not end within them, the count has
wrapped below zero and the padding runs over the memory behind, so there is no result. -/
def strncpy (src : CString) (n : Nat) : Option CString := if src.length < n then some src else none

/-- The first loop of `strncpy`, with the count as the number of characters left: the bytes it writes, and
the count behind it. The test `n--` counts down once more where the count runs out first, to `2^32 - 1`. -/
def strncpyCopy : (src : CString) → (n : Nat) → List Byte × Nat
  | _, 0 => ([], 2 ^ 32 - 1)
  | [], n + 1 => ([0], n)
  | c :: src, n + 1 =>
    let (bytes, left) := strncpyCopy src n
    (c :: bytes, left)

/-- The bytes that `strncpy` of `src/mm/kheap.c` writes, from `dest` on. -/
def strncpyBytes (src : CString) (n : Nat) : List Byte :=
  let (bytes, left) := strncpyCopy src n
  bytes ++ List.replicate left 0

def emptySymbol : Symbol :=
  { name := []
    type := .undef
    baseType := .int
    offset := 0
    scopeLevel := -1
    arraySize := 0 }

def symtabInit : Symtab :=
  { entries := List.replicate symTableSize emptySymbol
    nextFree := 0 }

/-- `find_free_slot`, from the hint on and around the end of the array. -/
def findFreeSlot (tab : Symtab) : Option Nat :=
  ((List.range symTableSize).map fun i => (tab.nextFree + i) % symTableSize).find? fun idx =>
    decide ((tab.entries[idx]?.map Symbol.scopeLevel) = some (-1))

def symtabAdd (tab : Symtab) (name : CString) (type : SymType) (offset scopeLevel : Int) :
    Option (Int × Symtab) :=
  if scopeLevel < 0 then some (-1, tab)
  else if tab.entries.any fun s => s.scopeLevel = scopeLevel ∧ s.name = name then some (-1, tab)
  else
    match findFreeSlot tab with
    | none => some (-1, tab)
    | some idx => do
        let stored ← strncpy name (symNameMax - 1)
        some (0,
          { entries := tab.entries.set idx
              { name := stored
                type := type
                baseType := .int
                offset := offset
                scopeLevel := scopeLevel
                arraySize := 0 }
            nextFree := (idx + 1) % symTableSize })

/-- The search goes from the last entry to the first. -/
def symtabLookup (tab : Symtab) (name : CString) : Option Symbol :=
  tab.entries.reverse.find? fun s => s.scopeLevel ≠ -1 ∧ s.name = name

def symTypeSize : SymType → Nat
  | .int | .ptr => 4
  | .char => 1
  | _ => 0

/-! ### Scopes -/

/-- The table with `current_scope`. -/
structure ScopedTab where
  tab : Symtab
  currentScope : Int
deriving DecidableEq, Repr

def symtabEnterScope (t : ScopedTab) : ScopedTab := { t with currentScope := t.currentScope + 1 }

/-- What `symtab_exit_scope` makes of a symbol of the scope. -/
def clearSymbol (sym : Symbol) : Symbol :=
  { sym with
    name := []
    type := .undef
    offset := 0
    scopeLevel := -1
    arraySize := 0 }

def symtabExitScope (t : ScopedTab) : ScopedTab :=
  if t.currentScope ≤ 0 then t
  else
    { tab :=
        { t.tab with
          entries := t.tab.entries.map fun sym =>
            if sym.scopeLevel = t.currentScope then clearSymbol sym else sym }
      currentScope := t.currentScope - 1 }

end JexOs.Tcc
