import Mathlib.Data.Bool.AllAny
import Mathlib.Data.List.Basic

/-!
# Formatted output

`src/lib/vsnprintf.c`. Strings are what is in front of their terminating NUL, and the scan pointer is what
is left of the format. The arguments are the words above the format on the stack; a word is an integer or
the address of a string. What has been written to the buffer is the list of characters up to `p`.
-/

namespace JexOs.Vsnprintf

/-- A NUL-terminated string. -/
structure CString where
  chars : List UInt8
  nonzero : ∀ c ∈ chars, c ≠ 0

structure Args where
  word : Nat → UInt32
  string : UInt32 → CString

/-- An access outside the format, a scratch array or the buffer. -/
inductive Fault where
  | format
  | scratch
  | buffer
deriving DecidableEq, Repr

/-! ### The buffer and the scratch arrays -/

/-- `*p++ = c` in a buffer of `size` bytes. -/
def store (size : Nat) (out : List UInt8) (c : UInt8) : Except Fault (List UInt8) :=
  if out.length < size then .ok (out ++ [c]) else .error .buffer

/-- The characters are stored until `p` is at `end`. -/
def emit (size : Nat) : List UInt8 → List UInt8 → Except Fault (List UInt8)
  | [], out => .ok out
  | c :: cs, out =>
    if out.length < size - 1 then do
      let out ← store size out c
      emit size cs out
    else .ok out

/-- `tmp[len++] = c` in an array of `size` bytes. -/
def push (size : Nat) (tmp : List UInt8) (c : UInt8) : Except Fault (List UInt8) :=
  if tmp.length < size then .ok (tmp ++ [c]) else .error .scratch

/-- The loop that finds the digits. With one turn more than the array has bytes the array is full. -/
def digitLoop (size : Nat) (digit : UInt32 → UInt8) (next : UInt32 → UInt32) :
    (fuel : Nat) → UInt32 → List UInt8 → Except Fault (List UInt8)
  | 0, _, _ => .error .scratch
  | fuel + 1, val, tmp => do
      let tmp ← push size tmp (digit val)
      if next val > 0 then digitLoop size digit next fuel (next val) tmp else .ok tmp

def padLoop (size : Nat) (width : Int32) (c : UInt8) : (fuel : Nat) → List UInt8 → Except Fault (List UInt8)
  | 0, _ => .error .scratch
  | fuel + 1, tmp =>
    if (tmp.length : Int) < width.toInt then do
      let tmp ← push size tmp c
      padLoop size width c fuel tmp
    else .ok tmp

/-- Both padding loops. -/
def pad (size : Nat) (width : Int32) (zero : Bool) (tmp : List UInt8) : Except Fault (List UInt8) := do
  let tmp ← if zero then padLoop size width '0'.toUInt8 (size + 1) tmp else .ok tmp
  padLoop size width ' '.toUInt8 (size + 1) tmp

/-! ### Numbers -/

/-- The value without its sign, and whether there is one. -/
def magnitude (val : UInt32) (sign : Bool) : UInt32 × Bool :=
  if sign ∧ val.toInt32 < 0 then
    (if val.toInt32 = (0x80000000 : UInt32).toInt32 then 0x80000000 else (-val.toInt32).toUInt32, true)
  else (val, false)

/-- `tmp` of `print_dec` in front of the last loop. -/
def decTmp (val : UInt32) (sign : Bool) (width : Int32) (zero : Bool) : Except Fault (List UInt8) := do
  let (val, neg) := magnitude val sign
  let tmp ← digitLoop 12 (fun val => '0'.toUInt8 + (val % 10).toUInt8) (· / 10) 13 val []
  let tmp ← if neg then push 12 tmp '-'.toUInt8 else .ok tmp
  pad 12 width zero tmp

def printDec (size : Nat) (out : List UInt8) (val : UInt32) (sign : Bool) (width : Int32)
    (zero : Bool) : Except Fault (List UInt8) := do
  let tmp ← decTmp val sign width zero
  emit size tmp.reverse out

def hexDigits (upper : Bool) : List UInt8 :=
  ['0', '1', '2', '3', '4', '5', '6', '7', '8', '9'].map Char.toUInt8 ++
    (if upper then ['A', 'B', 'C', 'D', 'E', 'F'] else ['a', 'b', 'c', 'd', 'e', 'f']).map Char.toUInt8

def hexDigit (upper : Bool) (val : UInt32) : UInt8 := (hexDigits upper).getD (val &&& 0xF).toNat 0

/-- `tmp` of `print_hex` in front of the last loop. -/
def hexTmp (val : UInt32) (upper : Bool) (width : Int32) (zero : Bool) : Except Fault (List UInt8) := do
  let tmp ←
    if width = 0 then
      ([7, 6, 5, 4, 3, 2, 1, 0] : List UInt32).foldlM
        (fun tmp i => push 10 tmp (hexDigit upper (val >>> (i * 4)))) []
    else digitLoop 10 (hexDigit upper) (· >>> 4) 11 val []
  pad 10 width zero tmp

def printHex (size : Nat) (out : List UInt8) (val : UInt32) (upper : Bool) (width : Int32)
    (zero : Bool) : Except Fault (List UInt8) := do
  let tmp ← hexTmp val upper width zero
  emit size tmp.reverse out

/-! ### The format -/

/-- The specifier that the switch looks at is the NUL where the format ends. -/
structure Conversion where
  zero : Bool
  width : Int32
  spec : UInt8
deriving DecidableEq

/-- `left`, `zero`, and the format behind the flags. -/
def parseFlags : (left zero : Bool) → List UInt8 → Bool × Bool × List UInt8
  | left, zero, [] => (left, zero, [])
  | left, zero, c :: fmt =>
    if c = '-'.toUInt8 then parseFlags true zero fmt
    else if c = '0'.toUInt8 then parseFlags left true fmt
    else (left, zero, c :: fmt)

def parseWidth : Int32 → List UInt8 → Int32 × List UInt8
  | width, [] => (width, [])
  | width, c :: fmt =>
    if '0'.toUInt8 ≤ c ∧ c ≤ '9'.toUInt8 then
      parseWidth (width * 10 + (Int32.ofNat c.toNat - Int32.ofNat '0'.toNat)) fmt
    else (width, c :: fmt)

/-- What is behind the percent sign up to the switch. -/
def parseConversion (fmt : List UInt8) : Conversion × List UInt8 :=
  let (left, zero, fmt) := parseFlags false false fmt
  let (width, fmt) := parseWidth 0 fmt
  let zero := zero && !left
  let fmt := if fmt.headD 0 = 'l'.toUInt8 then fmt.tail else fmt
  ({ zero := zero
     width := width
     spec := fmt.headD 0 }, fmt)

inductive Specifier where
  | dec (sign : Bool)
  | hex (upper : Bool)
  | pointer
  | string
  | char
  | percent
  | other
deriving DecidableEq, Repr

/-- The case of the switch. -/
def specifier (c : UInt8) : Specifier :=
  if c = 'd'.toUInt8 ∨ c = 'i'.toUInt8 then .dec true
  else if c = 'u'.toUInt8 then .dec false
  else if c = 'x'.toUInt8 then .hex false
  else if c = 'X'.toUInt8 then .hex true
  else if c = 'p'.toUInt8 then .pointer
  else if c = 's'.toUInt8 then .string
  else if c = 'c'.toUInt8 then .char
  else if c = '%'.toUInt8 then .percent
  else .other

def nullText : List UInt8 := ['(', 'n', 'u', 'l', 'l', ')'].map Char.toUInt8

/-- What is written, and the next argument. -/
def convert (size : Nat) (args : Args) (k : Nat) (conv : Conversion) (out : List UInt8) :
    Except Fault (List UInt8 × Nat) :=
  let arg := args.word k
  match specifier conv.spec with
  | .dec sign => do
      let out ← printDec size out arg sign conv.width conv.zero
      .ok (out, k + 1)
  | .hex upper => do
      let out ← printHex size out arg upper conv.width conv.zero
      .ok (out, k + 1)
  | .pointer => do
      let out ← emit size ['0'.toUInt8] out
      let out ← emit size ['x'.toUInt8] out
      let out ← printHex size out arg false 8 true
      .ok (out, k + 1)
  | .string => do
      let out ← emit size (if arg = 0 then nullText else (args.string arg).chars) out
      .ok (out, k + 1)
  | .char => do
      if out.length < size - 1 then
        let out ← store size out arg.toUInt8
        .ok (out, k + 1)
      else .ok (out, k)
  | .percent => do
      let out ← emit size ['%'.toUInt8] out
      .ok (out, k)
  | .other => do
      let out ← emit size ['%'.toUInt8] out
      let out ← emit size [conv.spec] out
      .ok (out, k)

/-- `fmt++`, which leads behind the NUL where the format has ended. -/
def advance (fmt : List UInt8) : Option (List UInt8) :=
  match fmt with
  | [] => none
  | _ :: fmt => some fmt

/-- The loop over the format. No turn begins behind the NUL, so there are at most as many as the format
has bytes, and one. -/
def formatLoop (size : Nat) (args : Args) :
    (fuel : Nat) → Option (List UInt8) → Nat → List UInt8 → Except Fault (List UInt8)
  | 0, _, _, _ => .error .format
  | _ + 1, none, _, _ => .error .format
  | _ + 1, some [], _, out => .ok out
  | fuel + 1, some (c :: fmt), k, out =>
    if out.length < size - 1 then
      if c ≠ '%'.toUInt8 then do
        let out ← store size out c
        formatLoop size args fuel (some fmt) k out
      else do
        let (conv, fmt) := parseConversion fmt
        let (out, k) ← convert size args k conv out
        formatLoop size args fuel (advance fmt) k out
    else .ok out

/-- The buffer up to the NUL that is stored last, and what is returned. -/
def vsnprintf (size : Nat) (fmt : CString) (args : Args) : Except Fault (List UInt8 × Int32) := do
  let out ← formatLoop size args (fmt.chars.length + 1) (some fmt.chars) 0 []
  let buf ← store size out 0
  .ok (buf, Int32.ofNat out.length)

end JexOs.Vsnprintf
