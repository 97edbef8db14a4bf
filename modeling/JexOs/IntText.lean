import JexOs.Lib.Reverse

/-!
# Texts of integers

`int_to_string` of `src/bin/shell.c`, the handler of `SYS_PRINT_INT` in `src/kernel/syscall.c` and `itoa` of
`user/lib/stdio.c`. Division rounds towards zero, and the negative of INT_MIN is INT_MIN.
-/

namespace JexOs.IntText

/-- The value of an `int` as a `char`. -/
def asChar (n : Int32) : UInt8 := n.toUInt32.toUInt8

/-- `while (n != 0)`: the characters of the remainders. A number of 32 bits has at most 32 digits. -/
def digitLoop (base : Int32) (char : Int32 → UInt8) : (fuel : Nat) → Int32 → List UInt8 → Option (List UInt8)
  | 0, _, _ => none
  | fuel + 1, n, str =>
    if n ≠ 0 then digitLoop base char fuel (n / base) (str ++ [char (n % base)]) else some str

/-- The last loop of `int_to_string` and `itoa`. -/
def reversed (str : List UInt8) : List UInt8 := Reverse.swapLoop 0 str.length 0 (str.length - 1) str

def decDigit (rem : Int32) : UInt8 := asChar (rem + 48)

def intToString (n : Int32) : Option (List UInt8) :=
  if n = 0 then some ['0'.toUInt8]
  else do
    let (n, isNeg) := if n < 0 then (-n, true) else (n, false)
    let str ← digitLoop 10 decDigit 33 n []
    let str := if isNeg then str ++ ['-'.toUInt8] else str
    some (reversed str)

def itoaDigit (rem : Int32) : UInt8 := if rem > 9 then asChar (rem - 10 + 97) else asChar (rem + 48)

def itoa (n base : Int32) : Option (List UInt8) :=
  if n = 0 then some ['0'.toUInt8]
  else do
    let (n, isNeg) := if n < 0 ∧ base = 10 then (-n, true) else (n, false)
    let str ← digitLoop base itoaDigit 33 n []
    let str := if isNeg then str ++ ['-'.toUInt8] else str
    some (reversed str)

/-- `while (val > 0)` of the handler. -/
def positiveLoop : (fuel : Nat) → Int32 → List UInt8 → Option (List UInt8)
  | 0, _, _ => none
  | fuel + 1, val, buf => if val > 0 then
    positiveLoop fuel (val / 10) (buf ++ [decDigit (val % 10)]) else some buf

def minText : List UInt8 := ['-', '2', '1', '4', '7', '4', '8', '3', '6', '4', '8'].map Char.toUInt8

/-- What `SYS_PRINT_INT` writes to the terminal. -/
def sysPrintInt (val : Int32) : Option (List UInt8) :=
  if val.toUInt32 = 0x80000000 then some minText
  else if val = 0 then some ['0'.toUInt8]
  else do
    let (val, isNeg) := if val < 0 then (-val, true) else (val, false)
    let buf ← positiveLoop 33 val []
    let buf := if isNeg then buf ++ ['-'.toUInt8] else buf
    some ((List.range buf.length).map fun j => buf.getD (buf.length - 1 - j) 0)

end JexOs.IntText
