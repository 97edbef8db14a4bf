import Mathlib.Data.BitVec

/-!
# The keyboard

`src/drivers/keyboard.c`: the translation of scancodes, and the ring of characters between the interrupt
and the shell. A `char` is signed, so `keyboard_read` gives the codes of the arrow keys below zero. The
handler runs with interrupts off; `keyboard_read` and `keyboard_flush` are called by one consumer, and
`keyboard_read` can be interrupted at each of its accesses to the ring.
-/

namespace JexOs.Keyboard

abbrev Char8 := BitVec 8

def kbdBufSize : Nat := 256

/-! ### Scancodes -/

def code (c : Char) : Char8 := BitVec.ofNat 8 c.toNat

def codes (keys : String) : List Char8 := keys.toList.map code

/-- `kbdus`, up to its last initializer; the rest is 0. -/
def kbdus : List Char8 :=
  [0, 27] ++ codes "1234567890-=" ++ [8, 9] ++ codes "qwertyuiop[]" ++ [10, 0] ++
    codes "asdfghjkl;'" ++ [0x60, 0] ++ codes "\\zxcvbnm,./" ++ [0, code '*', 0, code ' ', 0] ++
    List.replicate 12 0 ++
    [0x84, 0x80, 0x85, code '-', 0x82, 0, 0x83, code '+', 0x86, 0x81, 0x87] ++ List.replicate 8 0

/-- `kbdus_shifted`. Its row of zeros is longer than that of `kbdus`, so the codes of the arrow keys stand
behind their places. -/
def kbdusShifted : List Char8 :=
  [0, 27] ++ codes "!@#$%^&*()_+" ++ [8, 9] ++ codes "QWERTYUIOP\x7b\x7d" ++ [10, 0] ++
    codes "ASDFGHJKL:\"~" ++ [0] ++ codes "|ZXCVBNM<>?" ++ [0, code '*', 0, code ' ', 0] ++
    List.replicate 33 0 ++
    [0x84, 0x80, 0x85, code '-', 0x82, 0, 0x83, code '+', 0x86, 0x81, 0x87] ++ List.replicate 6 0

/-- The letters that `Ctrl` turns into a control code. -/
def ctrlCodes : List (Char × Char8) :=
  [('s', 0x13), ('q', 0x11), ('b', 0x02), ('v', 0x16), ('a', 0x01), ('c', 0x03), ('f', 0x06),
    ('g', 0x07), ('n', 0x0E), ('x', 0x18), ('z', 0x1A)]

def ctrlChar (c : Char8) : Char8 :=
  match ctrlCodes.find? fun p => c = code p.1 ∨ c = code p.1.toUpper with
  | some p => p.2
  | none => c

structure Modifiers where
  shiftHeld : Bool
  ctrlHeld : Bool
deriving DecidableEq, Repr

/-- The part of `keyboard_callback` in front of the ring: the character of a key press, unless it is 0. -/
def translate (m : Modifiers) (scancode : Char8) : Modifiers × Option Char8 :=
  if scancode = 0xE0 then (m, none)
  else if scancode.getLsbD 7 then
    let released := scancode &&& 0x7F
    let m := if released = 42 ∨ released = 54 then { m with shiftHeld := false } else m
    (if released = 29 then { m with ctrlHeld := false } else m, none)
  else if scancode = 42 ∨ scancode = 54 then ({ m with shiftHeld := true }, none)
  else if scancode = 29 then ({ m with ctrlHeld := true }, none)
  else
    let c := (if m.shiftHeld then kbdusShifted else kbdus).getD scancode.toNat 0
    let c := if m.ctrlHeld then ctrlChar c else c
    (m, if c ≠ 0 then some c else none)

/-! ### The ring -/

/-- How far a call of `keyboard_read` has come. -/
inductive Reader where
  | idle
  /-- `kbd_head` is loaded for the test. -/
  | head (h : Nat)
  /-- The test has found a character. -/
  | nonempty
  /-- `kbd_tail` is loaded for the character. -/
  | index (t : Nat)
  | taken (c : Char8)
  /-- `kbd_tail` is loaded for its increment. -/
  | next (c : Char8) (t : Nat)
deriving DecidableEq, Repr

inductive Call where
  | read
  | flush
deriving DecidableEq, Repr

/-- The static variables, the consumer's call in progress, and the calls that it goes on to. -/
structure State where
  modifiers : Modifiers
  kbdBuffer : Nat → Char8
  kbdHead : Nat
  kbdTail : Nat
  reader : Reader
  calls : List Call

def boot (calls : List Call) : State :=
  { modifiers :=
      { shiftHeld := false
        ctrlHeld := false }
    kbdBuffer := fun _ => 0
    kbdHead := 0
    kbdTail := 0
    reader := .idle
    calls := calls }

/-- The producer's end of the ring. -/
def State.push (k : State) (c : Char8) : State :=
  let nextHead := (k.kbdHead + 1) % kbdBufSize
  if nextHead ≠ k.kbdTail then
    { k with
      kbdBuffer := Function.update k.kbdBuffer k.kbdHead c
      kbdHead := nextHead }
  else k

def keyboardCallback (scancode : Char8) (k : State) : State :=
  let (m, pressed) := translate k.modifiers scancode
  let k := { k with modifiers := m }
  match pressed with
  | some c => k.push c
  | none => k

def keyboardFlush (k : State) : State :=
  { k with
    kbdHead := 0
    kbdTail := 0 }

/-- The next access of the consumer, and what `keyboard_read` returns there. -/
def consume (k : State) : State × Option Int :=
  match k.reader with
  | .idle =>
    match k.calls with
    | [] => (k, none)
    | .flush :: rest => (keyboardFlush { k with calls := rest }, none)
    | .read :: rest =>
      ({ k with
          calls := rest
          reader := .head k.kbdHead }, none)
  | .head h =>
    if h = k.kbdTail then ({ k with reader := .idle }, some (-1))
    else ({ k with reader := .nonempty }, none)
  | .nonempty => ({ k with reader := .index k.kbdTail }, none)
  | .index t => ({ k with reader := .taken (k.kbdBuffer t) }, none)
  | .taken c => ({ k with reader := .next c k.kbdTail }, none)
  | .next c t =>
    ({ k with
        kbdTail := (t + 1) % kbdBufSize
        reader := .idle }, some c.toInt)

inductive Event where
  /-- IRQ 1, with a scancode at the port. -/
  | interrupt (scancode : Char8)
  /-- The consumer goes on. -/
  | consumer
deriving DecidableEq, Repr

def step (k : State) : Event → State × Option Int
  | .interrupt scancode => (keyboardCallback scancode k, none)
  | .consumer => consume k

/-- A run, with what `keyboard_read` returned in it. -/
def run (k : State) : List Event → State × List Int
  | [] => (k, [])
  | event :: events =>
    let (k, returned) := step k event
    let (k, results) := run k events
    (k, returned.toList ++ results)

end JexOs.Keyboard
