import JexOs.Lib.Bytes

/-!
# The TCP of the kernel

`src/drivers/tcp.c`: one connection, a segment handler that runs from the interrupt, and calls of the
shell that wait for it. The calls are modelled step by step, because segments arrive while they wait.
Resolving the peer's hardware address may fail; whether it does is an argument. `peer_mac`,
`retry_count` and the buffer of the last segment, which are only written or repeat what is sent, are
left out.
-/

namespace JexOs.Tcp

open ByteMem

inductive TcpState where
  | closed | synSent | established | finWait1 | finWait2 | timeWait | closeWait | lastAck | listen
  | synRcvd
deriving DecidableEq, Repr

def tcpFin : UInt8 := 0x01
def tcpSyn : UInt8 := 0x02
def tcpRst : UInt8 := 0x04
def tcpPsh : UInt8 := 0x08
def tcpAck : UInt8 := 0x10

def tcpRxBufSize : Nat := 4096
def tcpMaxRetries : Nat := 5
def tcpHeaderSize : Nat := 20

/-- The static variables of the connection. The receive buffer is its `rx_len` bytes. -/
structure Conn where
  state : TcpState
  remoteIp : UInt32
  remotePort : UInt16
  localPort : UInt16
  mySeq : UInt32
  myAck : UInt32
  peerIsn : UInt32
  peerAckedTo : UInt32
  rxBuf : List UInt8
  nextEphemeral : UInt16
deriving DecidableEq, Repr

def initial : Conn :=
  { state := .closed
    remoteIp := 0
    remotePort := 0
    localPort := 0
    mySeq := 0
    myAck := 0
    peerIsn := 0
    peerAckedTo := 0
    rxBuf := []
    nextEphemeral := 40000 }

/-- What the handler reads of a segment. The length is the one the headers give; the payload is the
memory from its first byte on. -/
structure Segment where
  srcIp : UInt32
  srcPort : UInt16
  destPort : UInt16
  seq : UInt32
  ack : UInt32
  flags : UInt8
  payloadLen : UInt32
  payload : Mem

def Segment.has (seg : Segment) (flag : UInt8) : Bool := decide (seg.flags &&& flag ≠ 0)

/-- A segment handed to `send_tcp_segment`. -/
structure Sent where
  flags : UInt8
  seq : UInt32
  ack : UInt32
  payload : List UInt8
deriving DecidableEq, Repr

def be16 (m : Mem) (a : Nat) : Nat := 256 * (m a).toNat + (m (a + 1)).toNat

def be32 (m : Mem) (a : Nat) : Nat := 65536 * be16 m a + be16 m (a + 2)

/-! ### The segment handler -/

/-- The first `n` bytes of a memory. -/
def bytesOf (m : Mem) (n : Nat) : List UInt8 := (List.range n).map m

/-- Only segments of the connection are looked at; a listening socket takes any source, and so does
one whose remote port and address are 0. -/
def accepts (c : Conn) (seg : Segment) : Bool :=
  if seg.destPort ≠ c.localPort then false
  else if c.state = .listen then true
  else if seg.srcPort ≠ c.remotePort ∧ c.remotePort ≠ 0 then false
  else if seg.srcIp ≠ c.remoteIp ∧ c.remoteIp ≠ 0 then false
  else true

def onListen (ticks : UInt32) (seg : Segment) (c : Conn) : Conn × List Sent :=
  if seg.has tcpSyn ∧ ¬ seg.has tcpAck then
    let isn := ticks ^^^ 0xCAFEBABE
    let ack := seg.seq + 1
    ({ c with
        remoteIp := seg.srcIp
        remotePort := seg.srcPort
        peerIsn := seg.seq
        mySeq := isn + 1
        myAck := ack
        state := .synRcvd },
      [{ flags := tcpSyn ||| tcpAck
         seq := isn
         ack := ack
         payload := [] }])
  else (c, [])

def onSynRcvd (seg : Segment) (c : Conn) : Conn :=
  if seg.ack = c.mySeq then
    { c with
      peerAckedTo := seg.ack
      state := .established }
  else c

def pureAck (c : Conn) : Sent :=
  { flags := tcpAck
    seq := c.mySeq
    ack := c.myAck
    payload := [] }

def onSynAck (seg : Segment) (c : Conn) : Conn × List Sent :=
  if c.state = .synSent ∧ seg.ack = c.mySeq then
    let c :=
      { c with
        peerIsn := seg.seq
        myAck := seg.seq + 1
        mySeq := seg.ack
        state := .established }
    (c, [pureAck c])
  else (c, [])

/-- The state after an acknowledgement, which covers our `FIN` or not. -/
def ackState (state : TcpState) (covers : Bool) : TcpState :=
  match state, covers with
  | .finWait1, true => .finWait2
  | .lastAck, true => .closed
  | state, _ => state

def onAck (seg : Segment) (c : Conn) : Conn :=
  { c with
    peerAckedTo := if seg.ack > c.peerAckedTo then seg.ack else c.peerAckedTo
    state := ackState c.state (decide (seg.ack ≥ c.mySeq)) }

/-- How many bytes of a payload are copied behind `rxLen` bytes. -/
def copyLen (rxLen payloadLen : UInt32) : UInt32 :=
  if rxLen + payloadLen > UInt32.ofNat tcpRxBufSize ∨ rxLen + payloadLen < rxLen then
    UInt32.ofNat tcpRxBufSize - rxLen
  else payloadLen

def onData (seg : Segment) (c : Conn) : Conn × List Sent :=
  if seg.payloadLen > 0 ∧ (seg.has tcpPsh ∨ seg.has tcpAck) then
    if seg.seq = c.myAck then
      let rx := c.rxBuf.take tcpRxBufSize
      let copy := copyLen (UInt32.ofNat rx.length) seg.payloadLen
      let c :=
        { c with
          rxBuf := rx ++ bytesOf seg.payload copy.toNat
          myAck := c.myAck + seg.payloadLen }
      (c, [pureAck c])
    else (c, [pureAck c])
  else (c, [])

def onFin (seg : Segment) (c : Conn) : Conn × List Sent :=
  let c := { c with myAck := seg.seq + seg.payloadLen + 1 }
  if c.state = .established then
    ({ c with
        mySeq := c.mySeq + 1
        state := .lastAck },
      [{ pureAck c with flags := tcpAck ||| tcpFin }])
  else if c.state = .finWait1 ∨ c.state = .finWait2 then ({ c with state := .timeWait }, [pureAck c])
  else (c, [])

/-- The part of the handler behind the handshake. -/
def onSegment (seg : Segment) (c : Conn) : Conn × List Sent :=
  let c := if seg.has tcpAck then onAck seg c else c
  let (c, out) := onData seg c
  let (c, out') := if seg.has tcpFin then onFin seg c else (c, [])
  (if seg.has tcpRst then { c with state := .closed } else c, out ++ out')

/-- `handle_tcp` on the fields of a segment. -/
def handleSegment (ticks : UInt32) (seg : Segment) (c : Conn) : Conn × List Sent :=
  if !accepts c seg then (c, [])
  else if c.state = .listen then onListen ticks seg c
  else if c.state = .synRcvd ∧ seg.has tcpAck then (onSynRcvd seg c, [])
  else if seg.has tcpSyn ∧ seg.has tcpAck then onSynAck seg c
  else onSegment seg c

/-- The fields of the segment in a datagram, if the lengths hold a TCP header. The length of the payload
is a difference of unsigned numbers. -/
def readSegment (data : Mem) (len ipHdr : Nat) : Option Segment :=
  let ipTot := be16 data 2
  if len < ipHdr + tcpHeaderSize ∨ ipTot < ipHdr + tcpHeaderSize then none
  else
    let dataOffset := (data (ipHdr + 12)).toNat / 16 * 4
    some
      { srcIp := UInt32.ofNat (load32 data 12)
        srcPort := UInt16.ofNat (be16 data ipHdr)
        destPort := UInt16.ofNat (be16 data (ipHdr + 2))
        seq := UInt32.ofNat (be32 data (ipHdr + 4))
        ack := UInt32.ofNat (be32 data (ipHdr + 8))
        flags := data (ipHdr + 13)
        payloadLen := UInt32.ofNat ipTot - UInt32.ofNat ipHdr - UInt32.ofNat dataOffset
        payload := fun k => data (ipHdr + dataOffset + k) }

def handleTcp (ticks : UInt32) (data : Mem) (len ipHdr : Nat) (c : Conn) : Conn × List Sent :=
  match readSegment data len ipHdr with
  | none => (c, [])
  | some seg => handleSegment ticks seg c

/-! ### The calls -/

/-- `tcp_receive`: the bytes copied, and the connection after it. -/
def tcpReceive (bufLen : Nat) (c : Conn) : List UInt8 × Conn :=
  (c.rxBuf.take bufLen, { c with rxBuf := c.rxBuf.drop bufLen })

/-- A number of type `int` from one of type `uint32_t`. -/
def asInt (n : Nat) : Int := (BitVec.ofNat 32 n).toInt

/-- Where the shell is. A segment being sent waits for the hardware address of the peer, with the
numbers it was called with. -/
inductive Call where
  | idle
  | opening
  | connecting (attempts : Nat)
  | transmitting (data : List UInt8) (sent : Nat) (segSeq ack : UInt32)
  | waiting (data : List UInt8) (sent : Nat) (segSeq : UInt32) (attempts : Nat)
  | finishing (seq ack : UInt32)
  | closing (attempts : Nat)
  | lingering
  | draining
deriving DecidableEq, Repr

structure Machine where
  conn : Conn
  call : Call

inductive Event where
  | arrive (ticks : UInt32) (seg : Segment)
  | receive (bufLen : Nat)
  | listen (port : UInt16)
  | connect (destIp : UInt32) (destPort srcPort : UInt16) (ticks : UInt32)
  | send (data : List UInt8)
  | close
  | abort
  /-- `send_tcp_segment` returns. -/
  | transmitted (ok : Bool)
  /-- A waiting call looks at the state. -/
  | poll
  /-- A waiting call has waited for its time; a retransmission may fail. -/
  | timeout (ok : Bool)

inductive Output where
  | sent (segment : Sent)
  | received (bytes : List UInt8)
  | returned (result : Int)
deriving DecidableEq, Repr

def chunkSize : Nat := 1024

/-- The bytes of the next segment. -/
def chunk (data : List UInt8) (sent : Nat) : List UInt8 := (data.drop sent).take chunkSize

def tcpAbort (c : Conn) : Conn × List Output :=
  if c.state = .closed then (c, [])
  else ({ c with state := .closed }, [.sent { pureAck c with flags := tcpRst ||| tcpAck }])

def tcpListen (port : UInt16) (c : Conn) : Conn × List Output :=
  let (c, out) := tcpAbort c
  ({ c with
      remoteIp := 0
      remotePort := 0
      localPort := port
      rxBuf := []
      state := .listen }, out ++ [.returned 0])

/-- `tcp_connect` up to the sending of its first segment. -/
def tcpConnect (destIp : UInt32) (destPort srcPort : UInt16) (ticks : UInt32)
    (c : Conn) : Conn × List Output :=
  let (c, out) := tcpAbort c
  let isn := ticks ^^^ 0xDEADBEEF
  ({ c with
      remoteIp := destIp
      remotePort := destPort
      localPort := if srcPort = 0 then c.nextEphemeral else srcPort
      nextEphemeral := if srcPort = 0 then c.nextEphemeral + 1 else c.nextEphemeral
      mySeq := isn
      myAck := 0
      peerIsn := 0
      peerAckedTo := isn
      rxBuf := []
      state := .synSent }, out)

/-- The head of the loop of `tcp_send`: the next chunk, or the end. -/
def sendNext (c : Conn) (data : List UInt8) (sent : Nat) : Call × List Output :=
  if sent < data.length then (.transmitting data sent c.mySeq c.myAck, [])
  else (.idle, [.returned (asInt sent)])

/-- The exits of `tcp_send` on a failed transmission or a lost connection. -/
def sentOrError (sent : Nat) : Int := if asInt sent > 0 then asInt sent else -1

def tcpSend (data : List UInt8) (c : Conn) : Call × List Output :=
  if c.state ≠ .established then (.idle, [.returned (-1)]) else sendNext c data 0

def dataSegment (seq ack : UInt32) (payload : List UInt8) : Sent :=
  { flags := tcpPsh ||| tcpAck
    seq := seq
    ack := ack
    payload := payload }

def synSegment (seq : UInt32) : Sent :=
  { flags := tcpSyn
    seq := seq
    ack := 0
    payload := [] }

def finSegment (seq ack : UInt32) : Sent :=
  { flags := tcpFin ||| tcpAck
    seq := seq
    ack := ack
    payload := [] }

def onWire (ok : Bool) (segment : Sent) : List Output := if ok then [.sent segment] else []

/-- `send_tcp_segment` returns to the call that made it. -/
def afterTransmit (ok : Bool) (m : Machine) : Option (Machine × List Output) :=
  let c := m.conn
  match m.call with
  | .opening =>
    if ok then
      some ({ conn := { c with mySeq := c.mySeq + 1 }, call := .connecting 0 },
        [.sent (synSegment c.mySeq)])
    else
      some ({ conn := { c with state := .closed }, call := .idle }, [.returned (-1)])
  | .transmitting data sent segSeq ack =>
    let payload := chunk data sent
    if ok then
      some ({ conn := { c with mySeq := c.mySeq + UInt32.ofNat payload.length },
              call := .waiting data sent segSeq 0 },
        [.sent (dataSegment segSeq ack payload)])
    else some ({ m with call := .idle }, [.returned (sentOrError sent)])
  | .finishing seq ack =>
    some ({ conn := { c with mySeq := c.mySeq + 1 }, call := .closing 0 },
      onWire ok (finSegment seq ack))
  | _ => none

/-- One look of a waiting call at the connection. -/
def afterPoll (m : Machine) : Option (Machine × List Output) :=
  let c := m.conn
  match m.call with
  | .connecting _ =>
    if c.state = .established then some ({ m with call := .idle }, [.returned 0])
    else if c.state = .closed then some ({ m with call := .idle }, [.returned (-1)])
    else some (m, [])
  | .waiting data sent segSeq _ =>
    let payload := chunk data sent
    if c.peerAckedTo ≥ segSeq + UInt32.ofNat payload.length then
      let (call, out) := sendNext c data (sent + payload.length)
      some ({ m with call := call }, out)
    else if c.state = .closed then some ({ m with call := .idle }, [.returned (sentOrError sent)])
    else some (m, [])
  | .closing _ =>
    if c.state = .timeWait ∨ c.state = .closed ∨ c.state = .lastAck then
      some ({ conn := { c with state := .closed }, call := .idle }, [.returned 0])
    else if c.state = .finWait2 then some ({ m with call := .lingering }, [])
    else some (m, [])
  | .lingering =>
    if c.state = .timeWait ∨ c.state = .closed then
      some ({ conn := { c with state := .closed }, call := .idle }, [.returned 0])
    else some (m, [])
  | .draining =>
    if c.state = .closed then some ({ m with call := .idle }, [.returned 0]) else some (m, [])
  | _ => none

/-- A waiting call has waited for its time. -/
def afterTimeout (ok : Bool) (m : Machine) : Option (Machine × List Output) :=
  let c := m.conn
  let (aborted, rst) := tcpAbort c
  match m.call with
  | .connecting attempts =>
    let out := onWire ok (synSegment (c.mySeq - 1))
    if attempts + 1 < tcpMaxRetries then some ({ m with call := .connecting (attempts + 1) }, out)
    else
      some ({ conn := { c with state := .closed }, call := .idle }, out ++ [.returned (-1)])
  | .waiting data sent segSeq attempts =>
    let out := onWire ok (dataSegment segSeq c.myAck (chunk data sent))
    if attempts + 1 < tcpMaxRetries then
      some ({ m with call := .waiting data sent segSeq (attempts + 1) }, out)
    else some ({ m with call := .idle }, out ++ [.returned (asInt sent)])
  | .closing attempts =>
    let out := onWire ok (finSegment (c.mySeq - 1) c.myAck)
    if attempts + 1 < tcpMaxRetries then some ({ m with call := .closing (attempts + 1) }, out)
    else some ({ conn := aborted, call := .idle }, out ++ rst ++ [.returned 0])
  | .lingering | .draining => some ({ conn := aborted, call := .idle }, rst ++ [.returned 0])
  | _ => none

/-- A call that starts while no other is under way. -/
def startCall (m : Machine) : Event → Option (Machine × List Output)
  | .receive bufLen =>
    let (bytes, c) := tcpReceive bufLen m.conn
    some ({ m with conn := c }, [.received bytes])
  | .listen port =>
    let (c, out) := tcpListen port m.conn
    some ({ m with conn := c }, out)
  | .connect destIp destPort srcPort ticks =>
    let (c, out) := tcpConnect destIp destPort srcPort ticks m.conn
    some ({ conn := c, call := .opening }, out)
  | .send data =>
    let (call, out) := tcpSend data m.conn
    some ({ m with call := call }, out)
  | .close =>
    let c := m.conn
    if c.state = .lastAck then some ({ m with call := .draining }, [])
    else if c.state ≠ .established ∧ c.state ≠ .closeWait then some (m, [.returned 0])
    else
      some ({ conn := { c with state := .finWait1 }, call := .finishing c.mySeq c.myAck }, [])
  | .abort =>
    let (c, out) := tcpAbort m.conn
    some ({ m with conn := c }, out)
  | _ => none

def step (m : Machine) (e : Event) : Option (Machine × List Output) :=
  match e with
  | .arrive ticks seg =>
    let (c, out) := handleSegment ticks seg m.conn
    some ({ m with conn := c }, out.map .sent)
  | .transmitted ok => afterTransmit ok m
  | .poll => afterPoll m
  | .timeout ok => afterTimeout ok m
  | e => if m.call = .idle then startCall m e else none

def run : Machine → List Event → Option (Machine × List Output)
  | m, [] => some (m, [])
  | m, e :: es => do
      let (m, out) ← step m e
      let (m, rest) ← run m es
      some (m, out ++ rest)

end JexOs.Tcp
