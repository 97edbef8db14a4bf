import JexOs.Elf

/-!
# The first user stack

`setup_user_stack` of `src/kernel/elf.c`, for the stack that `map_user_stack` of `src/kernel/exec.c` has
mapped. What the function does to memory is the list of bytes it stores, in order. The arguments are
read from outside the stack, whose pages are new.
-/

namespace JexOs.UserStack

open ByteMem (Mem byteOf)
open Elf (word32)

/-- `USER_STACK_BASE` -/
def userStackBase : Nat := 0x800000

/-- `USER_STACK_LOW` -/
def userStackLow : Nat := 0x700000

/-- A byte stored at an address. -/
abbrev Write := Nat × UInt8

/-- Memory after some bytes were stored. -/
def after (m : Mem) (ws : List Write) : Mem :=
  ws.foldl (fun m w => Function.update m w.1 w.2) m

/-- Bytes stored one behind another. -/
def writeBytes (a : Nat) (bs : List UInt8) : List Write :=
  bs.zipIdx.map fun (b, k) => (word32 (a + k), b)

/-- `strcpy(a, s)` -/
def strcpy (a : Nat) (s : List UInt8) : List Write := writeBytes a (s ++ [0])

/-- The variables of `setup_user_stack`, and what it has stored. -/
structure Setup where
  esp : Nat
  actualArgc : Nat
  argvPointers : Nat → Nat
  writes : List Write

/-- `aligned_len` as an unsigned word. -/
def alignedLen (arg : List UInt8) : Nat := word32 (arg.length + 1 + 3) / 4 * 4

/-- `esp - len` on unsigned words. -/
def below (esp len : Nat) : Nat := word32 (4294967296 - len + esp)

/-- Where a string goes: below the last one, or, if there is no room for it, four bytes below. -/
def spot (esp : Nat) (arg : List UInt8) : Nat :=
  if below esp (alignedLen arg) < userStackLow then below esp 4 else below esp (alignedLen arg)

/-- The body of the loop over the arguments, for an argument that is not null. The string is copied
whole also when it was given the room of an empty one. -/
def pushString (s : Setup) (i : Nat) (arg : List UInt8) : Setup :=
  let esp := spot s.esp arg
  { esp := esp
    actualArgc := s.actualArgc + 1
    argvPointers := Function.update s.argvPointers i esp
    writes := s.writes ++ strcpy esp arg }

/-- The loop over the arguments, from argument `i` on; null pointers are passed over. -/
def pushStrings : List (Option (List UInt8)) → (i : Nat) → Setup → Setup
  | [], _, s => s
  | none :: args, i, s => pushStrings args (i + 1) s
  | some arg :: args, i, s => pushStrings args (i + 1) (pushString s i arg)

/-- `*--esp = v` -/
def pushWord (s : Setup) (v : Nat) : Setup :=
  let esp := below s.esp 4
  { s with
    esp := esp
    writes := s.writes ++ writeBytes esp ((List.range 4).map (byteOf v)) }

/-- The loop that pushes the first `n` pointers, the last one first. -/
def pushPointers : (n : Nat) → Setup → Setup
  | 0, s => s
  | n + 1, s => pushPointers n (pushWord s (s.argvPointers n))

/-- `setup_user_stack`; `junk` is what is in the array `argv_pointers` at first. The stack pointer of
the result is `*new_esp`. -/
def setupUserStack (stackTop : Nat) (argv : List (Option (List UInt8))) (junk : Nat → Nat) : Setup :=
  let s := pushStrings (argv.take 16) 0
    { esp := stackTop
      actualArgc := 0
      argvPointers := junk
      writes := [] }
  let s := pushPointers s.actualArgc (pushWord s 0)
  let s := pushWord s s.esp
  pushWord s s.actualArgc

end JexOs.UserStack
