import JexOs.Lib.Bytes
import JexOs.Lib.Circular

/-!
# The receive ring

The receive loops of `src/drivers/rtl8139.c`, which `rtl8139_handler` and `rtl8139_poll_rx` have in
common, with a card that writes frames into the ring at any time. The statistics, the log and what is
written to the card (`CAPR`) are left out: that the card overwrites nothing unread is taken as given.
-/

namespace JexOs.Rtl8139

open ByteMem Circular

def rxBufSize : Nat := 32768
def frameCopySize : Nat := 2048

/-! ### The card -/

/-- A frame that the card accepts, with its status; the length includes the checksum at its end. -/
structure Frame where
  status : UInt16
  data : List UInt8
  ok : status.toNat % 2 = 1
  long : 4 ≤ data.length

/-- The bytes in the ring: the status, the length, the frame. -/
def Frame.byte (f : Frame) (k : Nat) : UInt8 :=
  if k < 2 then byteOf f.status.toNat k
  else if k < 4 then byteOf f.data.length (k - 2)
  else f.data.getD (k - 4) 0

/-- The room that a frame takes. -/
def Frame.room (f : Frame) : Nat := (4 + f.data.length + 3) / 4 * 4

def totalRoom (frames : List Frame) : Nat := (frames.map Frame.room).sum

/-! ### The driver -/

/-- A running receive loop: its local offset, the length of the frame that `net_process_packet` has, and
how many frames it has passed on. -/
structure Loop where
  offset : Nat
  processing : Option Nat
  processed : Nat
deriving DecidableEq, Repr

/-- The ring, the position that the card writes at next, `rx_offset`, and the running loops, the last one
to begin first. What has been written, how much of it has been read and what the network stack was given
is kept beside them, and whether `frame_copy` was overrun. -/
structure State where
  ring : Mem
  writePos : Nat
  rxOffset : Nat
  loops : List Loop
  written : List Frame
  consumed : Nat
  delivered : List (List UInt8)
  overrun : Bool

/-- After `init_rtl8139`. -/
def start : State :=
  { ring := fun _ => 0
    writePos := 0
    rxOffset := 0
    loops := []
    written := []
    consumed := 0
    delivered := []
    overrun := false }

/-- The frames that have not been read. -/
def State.unread (s : State) : List Frame := s.written.drop s.consumed

section Reading

variable (ring : Mem) (offset : Nat)

def rxStatus : Nat := load16 ring offset
def rxLen : Nat := load16 ring (offset + 2)

/-- The header is taken for the one of a packet. -/
def isPacket : Bool :=
  rxStatus ring offset % 2 == 1 && rxLen ring offset ≤ rxBufSize && 4 ≤ rxLen ring offset

/-- The frame goes on at the start of the ring, so that it is copied. -/
def wraps : Bool := rxBufSize < offset + 4 + rxLen ring offset

/-- What `net_process_packet` is given. -/
def frameAt : List UInt8 :=
  (List.range (rxLen ring offset)).map fun k =>
    let firstChunk := rxBufSize - (offset + 4)
    if wraps ring offset && firstChunk ≤ k then ring (k - firstChunk) else ring (offset + 4 + k)

/-- The offset behind a frame, in 16 bits. -/
def advance (len : Nat) : Nat :=
  let next := (offset + (len + 4)) % 2 ^ 16
  let aligned := (next + 3) / 4 * 4 % 2 ^ 16
  if aligned ≥ rxBufSize then aligned - rxBufSize else aligned

/-- Where a turn of the loop reads the ring, and how many bytes each time: the header, and the frame in one
piece, by `net_process_packet`, or in two. -/
def ringReads : List (Nat × Nat) :=
  (offset, 4) ::
    if isPacket ring offset then
      if wraps ring offset then
        let firstChunk := rxBufSize - (offset + 4)
        [(offset + 4, firstChunk), (0, rxLen ring offset - firstChunk)]
      else [(offset + 4, rxLen ring offset)]
    else []

/-- How many bytes the turn copies into `frame_copy`. -/
def copied : Nat :=
  if isPacket ring offset && wraps ring offset then
    let firstChunk := rxBufSize - (offset + 4)
    firstChunk + (rxLen ring offset - firstChunk)
  else 0

/-- The offset that the turn ends with. -/
def nextOffset : Nat := if isPacket ring offset then advance offset (rxLen ring offset) else offset

end Reading

/-- A loop can begin: none is running, or the stack has enabled interrupts, or polls itself, while the
running one passes frames on. -/
def State.canBegin (s : State) : Bool :=
  match s.loops with
  | [] => true
  | loop :: _ => loop.processing.isSome || loop.processed != 0

inductive Event where
  /-- The card writes a frame. -/
  | write (f : Frame)
  /-- `rtl8139_handler` with the ROK bit in the interrupt status, or `rtl8139_poll_rx`. -/
  | begin
  /-- The running loop looks at the header at its offset. -/
  | look
  /-- `net_process_packet` returns. -/
  | done

/-- The card writes only where nothing unread is. -/
def cardWrite (f : Frame) (s : State) : Option State :=
  if totalRoom s.unread + f.room ≤ rxBufSize then
    some { s with
      ring := put rxBufSize s.ring s.writePos (4 + f.data.length) f.byte
      writePos := (s.writePos + f.room) % rxBufSize
      written := s.written ++ [f] }
  else none

def lookAt (s : State) : Option State :=
  match s.loops with
  | [] => none
  | loop :: rest =>
    if loop.processing.isSome then none
    else if isPacket s.ring loop.offset then
      some { s with
        loops := { loop with processing := some (rxLen s.ring loop.offset) } :: rest
        delivered := s.delivered ++ [frameAt s.ring loop.offset]
        overrun := s.overrun ||
          (wraps s.ring loop.offset && frameCopySize < rxLen s.ring loop.offset) }
    else
      some { s with
        rxOffset := loop.offset
        loops := rest }

def processed (s : State) : Option State :=
  match s.loops with
  | [] => none
  | loop :: rest =>
    match loop.processing with
    | none => none
    | some len =>
      some { s with
        loops :=
          { offset := advance loop.offset len
            processing := none
            processed := loop.processed + 1 } :: rest
        consumed := s.consumed + 1 }

def step (s : State) : Event → Option State
  | .write f => cardWrite f s
  | .begin =>
    if s.canBegin then
      some { s with
        loops :=
          { offset := s.rxOffset
            processing := none
            processed := 0 } :: s.loops }
    else none
  | .look => lookAt s
  | .done => processed s

def run : State → List Event → Option State
  | s, [] => some s
  | s, event :: events => do
      let s ← step s event
      run s events

end JexOs.Rtl8139
