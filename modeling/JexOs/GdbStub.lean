import Mathlib.Logic.Function.Basic

/-!
# The GDB stub

`src/debug/gdb_stub.c`: the command loop over packets that have arrived, without what it answers. Of the
registers it changes `eip` and `eflags`. A packet is written over the one before, so the parsers may read
bytes of older packets; the last byte of the buffer stays 0.
-/

namespace JexOs.Gdb

abbrev Packet := List UInt8

def bufSize : Nat := 512
def maxBp : Nat := 256
def int3 : UInt8 := 0xCC
def trapFlag : UInt32 := 0x100
def comma : UInt8 := 44

/-- The entries of `bp_addr` and `bp_orig` in use, memory, the packet buffer and `stepping_over`. -/
structure Stub where
  mem : UInt32 → UInt8
  bps : List (UInt32 × UInt8)
  pktBuf : List UInt8
  steppingOver : Bool

structure Regs where
  eip : UInt32
  eflags : UInt32
deriving DecidableEq, Repr

/-! ### Packets -/

def gdbRecvPacket (packet : Packet) (buf : List UInt8) : List UInt8 :=
  let kept := packet.take (bufSize - 1)
  kept ++ buf.drop kept.length

def hexToByte (c : UInt8) : Nat :=
  if 48 ≤ c ∧ c ≤ 57 then c.toNat - 48
  else if 97 ≤ c ∧ c ≤ 102 then c.toNat - 97 + 10
  else if 65 ≤ c ∧ c ≤ 70 then c.toNat - 65 + 10
  else 0

/-- The digits that the parsers of addresses go on at. -/
def isDigit (c : UInt8) : Bool := (48 ≤ c ∧ c ≤ 57) ∨ (97 ≤ c ∧ c ≤ 102)

def shiftIn (n : UInt32) (c : UInt8) : UInt32 := (n <<< 4) + UInt32.ofNat (hexToByte c)

/-- An address, and what is behind it. -/
def readAddr : UInt32 → List UInt8 → UInt32 × List UInt8
  | addr, [] => (addr, [])
  | addr, c :: rest =>
    if c ≠ 0 ∧ c ≠ comma ∧ isDigit c then readAddr (shiftIn addr c) rest else (addr, c :: rest)

/-- The length in an `M` packet ends at a colon. -/
def readLen : UInt32 → List UInt8 → UInt32 × List UInt8
  | len, [] => (len, [])
  | len, c :: rest => if c ≠ 0 ∧ c ≠ 58 then readLen (shiftIn len c) rest else (len, c :: rest)

/-- The address of a `Z` or `z` packet: the letter and the type are skipped, and a comma. -/
def breakAddr (buf : List UInt8) : UInt32 :=
  let rest := buf.drop 2
  (readAddr 0 (if rest.head? = some comma then rest.tail else rest)).1

/-! ### Memory -/

/-- `hex_to_mem`, which fails where it reads behind the packet buffer. -/
def hexToMem : UInt32 → List UInt8 → Nat → (UInt32 → UInt8) → Option (UInt32 → UInt8)
  | _, _, 0, m => some m
  | addr, hi :: lo :: rest, n + 1, m =>
    hexToMem (addr + 1) rest n
      (Function.update m addr (UInt8.ofNat (16 * hexToByte hi + hexToByte lo)))
  | _, _, _ + 1, _ => none

/-- `M`: the length, doubled and halved again, is an `int`. -/
def writeMemory (s : Stub) : Option Stub :=
  let (addr, rest) := readAddr 0 (s.pktBuf.drop 1)
  let (len, rest) := readLen 0 (rest.drop 1)
  let count := ((len.toInt32 * 2).toInt / 2).toNat
  (hexToMem addr (rest.drop 1) count s.mem).map fun m => { s with mem := m }

def insertBreakpoint (addr : UInt32) (s : Stub) : Stub :=
  if s.bps.length < maxBp then
    { s with
      bps := s.bps ++ [(addr, s.mem addr)]
      mem := Function.update s.mem addr int3 }
  else s

/-- The last entry takes the place of entry `i`. -/
def dropEntry (bps : List (UInt32 × UInt8)) (i : Nat) : List (UInt32 × UInt8) :=
  match bps.getLast? with
  | none => bps
  | some last => (bps.set i last).dropLast

def removeBreakpoint (addr : UInt32) (s : Stub) : Stub :=
  match s.bps.findIdx? (·.1 == addr) with
  | none => s
  | some i =>
    match s.bps[i]? with
    | none => s
    | some (_, orig) =>
      { s with
        mem := Function.update s.mem addr orig
        bps := dropEntry s.bps i }

/-- All breakpoints are armed. -/
def rearm (s : Stub) : Stub :=
  { s with mem := s.bps.foldl (fun m bp => Function.update m bp.1 int3) s.mem }

/-! ### The handlers -/

/-- One packet. The stub returns to the program with the registers it gives. -/
def command (regs : Regs) (packet : Packet) (s : Stub) : Option (Stub × Option Regs) :=
  if packet.isEmpty then some (s, none)
  else
    let s := { s with pktBuf := gdbRecvPacket packet s.pktBuf }
    match s.pktBuf.head? with
    | some 77 => (writeMemory s).map fun s => (s, none)
    | some 99 =>
      some ({ rearm s with steppingOver := true }, some { regs with eflags := regs.eflags ||| trapFlag })
    | some 115 =>
      some ({ s with steppingOver := false }, some { regs with eflags := regs.eflags ||| trapFlag })
    | some 90 => some (insertBreakpoint (breakAddr s.pktBuf) s, none)
    | some 122 => some (removeBreakpoint (breakAddr s.pktBuf) s, none)
    | _ => some (s, none)

/-- The command loop on the packets that arrive. Without registers it still waits for one. -/
def commandLoop (regs : Regs) : List Packet → Stub → Option (Stub × Option Regs)
  | [], s => some (s, none)
  | packet :: packets, s =>
    match command regs packet s with
    | none => none
    | some (s, some regs) => some (s, some regs)
    | some (s, none) => commandLoop regs packets s

def gdbStubHandler (regs : Regs) (packets : List Packet) (s : Stub) : Option (Stub × Option Regs) :=
  let bpEip := regs.eip - 1
  match s.bps.find? (·.1 == bpEip) with
  | none => commandLoop regs packets s
  | some (_, orig) =>
    commandLoop { regs with eip := bpEip } packets
      { s with mem := Function.update s.mem bpEip orig }

end JexOs.Gdb
