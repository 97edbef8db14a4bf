import JexOs.Tcp

/-!
# Datagrams

`src/drivers/net.c` from the IP header up: the checksum, the frames that are built, and the handlers
of a received datagram. A datagram is read through a pointer into memory, which goes on behind the
`len` bytes that were received. Log output is left out.
-/

namespace JexOs.Net

open ByteMem Tcp

def ethHeaderLen : Nat := 14
def ipHeaderLen : Nat := 20
def icmpHeaderLen : Nat := 8
def udpHeaderLen : Nat := 8
def udpPseudoLen : Nat := 12
def packetBufSize : Nat := 2048

def ethertypeIp : Nat := 0x0800

def ipProtoIcmp : UInt8 := 1
def ipProtoTcp : UInt8 := 6
def ipProtoUdp : UInt8 := 17

def icmpEchoReply : UInt8 := 0
def icmpEchoRequest : UInt8 := 8

/-- The memory from an address on. -/
def behind (m : Mem) (a : Nat) : Mem := fun k => m (a + k)

def store8 (m : Mem) (a : Nat) (v : UInt8) : Mem := blit m a 1 fun _ => v

/-- `*(uint16_t*)(m + a) = htons(v)`. -/
def storeBe16 (m : Mem) (a v : Nat) : Mem := blit m a 2 fun k => byteOf v (1 - k)

/-- `*(uint32_t*)(m + a) = htonl(v)`. -/
def storeBe32 (m : Mem) (a v : Nat) : Mem := blit m a 4 fun k => byteOf v (3 - k)

/-! ### The checksum -/

/-- The sum of the first `n` words. -/
def sumWords (m : Mem) : Nat → Nat
  | 0 => 0
  | n + 1 => (sumWords m n + load16 m (2 * n)) % 2 ^ 32

def sumBytes (m : Mem) (len : Nat) : Nat :=
  if len % 2 = 1 then (sumWords m (len / 2) + (m (len - 1)).toNat) % 2 ^ 32 else sumWords m (len / 2)

/-- The carries are added until the sum has 16 bits. -/
def fold (sum : Nat) : Nat :=
  if sum / 2 ^ 16 = 0 then sum else fold (sum % 2 ^ 16 + sum / 2 ^ 16)
termination_by sum
decreasing_by omega

def checksum (m : Mem) (len : Nat) : Nat := 0xFFFF - fold (sumBytes m len)

/-! ### The state -/

abbrev Mac := Fin 6 → UInt8

def macBytes (mac : Mac) : Mem := fun k => if h : k < 6 then mac ⟨k, h⟩ else 0

structure ArpEntry where
  ip : UInt32
  mac : Mac
  valid : Bool

/-- An entry of the table of handlers; the handler is the address of its code. -/
structure UdpHandlerEntry where
  port : UInt16
  handler : UInt32
  userdata : UInt32
  active : Bool
deriving DecidableEq, Repr

def UdpHandlerEntry.serves (entry : UdpHandlerEntry) (port : UInt16) : Bool :=
  entry.active && entry.port == port

def udpMaxHandlers : Nat := 8

/-- The table of handlers, with at most one active entry for a port. -/
structure UdpHandlers where
  entries : List UdpHandlerEntry
  length_eq : entries.length = udpMaxHandlers
  unique : entries.Pairwise fun a b => ∀ port, a.serves port = true → b.serves port = false

/-- The network configuration, the connection, and the static buffers that replies and checksums are
made in. -/
structure Host where
  ourIp : UInt32
  gatewayIp : UInt32
  ourMac : Mac
  arpCache : List ArpEntry
  handlers : UdpHandlers
  conn : Conn
  ipId : UInt16
  pingResponses : UInt32
  sendBuf : Mem
  replyBuf : Mem
  checksumBuf : Mem

/-- A frame handed to the network card, a handler that is called, or a segment handed to TCP's
sender. -/
inductive Output where
  | frame (bytes : List UInt8)
  | udp (handler userdata srcIp : UInt32) (srcPort : UInt16) (payload : List UInt8)
  | tcp (segment : Sent)
deriving DecidableEq, Repr

/-! ### Addresses -/

def arpFind (cache : List ArpEntry) (ip : UInt32) : Option Nat :=
  cache.findIdx? fun entry => entry.valid && entry.ip == ip

/-- The entry of the address, the first free one, or the last one after all have moved up. -/
def arpAdd (cache : List ArpEntry) (ip : UInt32) (mac : Mac) : List ArpEntry :=
  let entry : ArpEntry := { ip := ip, mac := mac, valid := true }
  match arpFind cache ip with
  | some i => cache.modify i fun entry => { entry with mac := mac }
  | none =>
    match cache.findIdx? fun entry => !entry.valid with
    | some i => cache.set i entry
    | none => cache.drop 1 ++ [entry]

def isLocalIp (host : Host) (ip : UInt32) : Bool := ip &&& 0x00FFFFFF == host.ourIp &&& 0x00FFFFFF

def resolveMac (host : Host) (ip : UInt32) : Option Mac := do
  let i ← arpFind host.arpCache (if isLocalIp host ip then ip else host.gatewayIp)
  let entry ← host.arpCache[i]?
  some entry.mac

/-! ### Headers -/

def buildEtherHeader (buf : Mem) (dest src : Mac) (type : Nat) : Mem :=
  storeBe16 (blit (blit buf 0 6 (macBytes dest)) 6 6 (macBytes src)) 12 type

/-- The header without its checksum. -/
def ipHeaderFields (buf : Mem) (p : Nat) (protocol : UInt8) (srcIp destIp : UInt32)
    (dataLen : Nat) (ipId : UInt16) : Mem :=
  let m := store8 buf p 0x45
  let m := store8 m (p + 1) 0
  let m := storeBe16 m (p + 2) (ipHeaderLen + dataLen % 2 ^ 16)
  let m := storeBe16 m (p + 4) ipId.toNat
  let m := storeBe16 m (p + 6) 0x4000
  let m := store8 m (p + 8) 64
  let m := store8 m (p + 9) protocol
  let m := store16 m (p + 10) 0
  let m := store32 m (p + 12) srcIp.toNat
  store32 m (p + 16) destIp.toNat

def buildIpHeader (buf : Mem) (p : Nat) (protocol : UInt8) (srcIp destIp : UInt32) (dataLen : Nat)
    (ipId : UInt16) : Mem :=
  let m := ipHeaderFields buf p protocol srcIp destIp dataLen ipId
  store16 m (p + 10) (checksum (behind m p) ipHeaderLen)

/-! ### UDP -/

def udpPseudo (buf : Mem) (srcIp destIp : UInt32) (udpLen : Nat) : Mem :=
  let m := store32 buf 0 srcIp.toNat
  let m := store32 m 4 destIp.toNat
  let m := store8 m 8 0
  let m := store8 m 9 ipProtoUdp
  storeBe16 m 10 udpLen

/-- `udp_checksum`, and what it leaves in its buffer. -/
def udpChecksum (buf : Mem) (srcIp destIp : UInt32) (udp : Mem) (udpLen : Nat) : Nat × Mem :=
  if udpPseudoLen + udpLen > udpPseudoLen + 1500 then (0, buf)
  else
    let buf := blit (udpPseudo buf srcIp destIp udpLen) udpPseudoLen udpLen udp
    let sum := checksum buf (udpPseudoLen + udpLen)
    (if sum = 0 then 0xFFFF else sum, buf)

/-- `udp->checksum` set to 0. -/
def withoutChecksum (udp : Mem) : Mem := store16 udp 6 0

def netUdpRegister (port : UInt16) (handler userdata : UInt32) (entries : List UdpHandlerEntry) :
    Option (List UdpHandlerEntry) :=
  match entries.findIdx? (·.serves port) with
  | some i => some (entries.modify i fun entry =>
    { entry with
      handler := handler
      userdata := userdata })
  | none =>
    match entries.findIdx? fun entry => !entry.active with
    | some i => some (entries.set i
        { port := port
          handler := handler
          userdata := userdata
          active := true })
    | none => none

def netUdpUnregister (port : UInt16) (entries : List UdpHandlerEntry) : List UdpHandlerEntry :=
  match entries.findIdx? (·.serves port) with
  | some i => entries.modify i fun entry => { entry with active := false }
  | none => entries

/-- `net_send_udp`: the frame that goes out, unless the hardware address is not known. -/
def netSendUdp (destIp : UInt32) (destPort srcPort : UInt16) (data : Mem) (len : Nat) (host : Host) :
    Option (List UInt8 × Host) := do
  let destMac ← resolveMac host destIp
  let udpLen := udpHeaderLen + len
  let p := ethHeaderLen + ipHeaderLen
  let m := buildEtherHeader host.sendBuf destMac host.ourMac ethertypeIp
  let m := buildIpHeader m ethHeaderLen ipProtoUdp host.ourIp destIp udpLen host.ipId
  let m := storeBe16 m p srcPort.toNat
  let m := storeBe16 m (p + 2) destPort.toNat
  let m := storeBe16 m (p + 4) udpLen
  let m := store16 m (p + 6) 0
  let m := blit m (p + udpHeaderLen) len data
  let (csum, scratch) := udpChecksum host.checksumBuf host.ourIp destIp (behind m p) udpLen
  let m := store16 m (p + 6) (if csum = 0 then 0xFFFF else csum)
  some (bytesOf m (p + udpLen),
    { host with
      ipId := host.ipId + 1
      sendBuf := m
      checksumBuf := scratch })

section Received

variable (host : Host) (data : Mem) (len : Nat) (srcMac : Mac) (ticks : UInt32)

def ipHdrLen : Nat := (data 0).toNat % 16 * 4
def ipTotalLen : Nat := be16 data 2
def ipProtocol : UInt8 := data 9
def ipSrc : UInt32 := UInt32.ofNat (load32 data 12)
def ipDest : UInt32 := UInt32.ofNat (load32 data 16)

/-- The answer to an echo request: the datagram with its addresses turned around. -/
def echoReply (ipHdr : Nat) : Mem :=
  let ipTot := ipTotalLen data
  let m := buildEtherHeader host.replyBuf srcMac host.ourMac ethertypeIp
  let m := blit m ethHeaderLen ipTot data
  let m := store32 m (ethHeaderLen + 16) (ipSrc data).toNat
  let m := store32 m (ethHeaderLen + 12) host.ourIp.toNat
  let m := store16 m (ethHeaderLen + 10) 0
  let m := store16 m (ethHeaderLen + 10) (checksum (behind m ethHeaderLen) ipHdr)
  let p := ethHeaderLen + ipHdr
  let m := store8 m p icmpEchoReply
  let m := store8 m (p + 1) 0
  let m := store16 m (p + 2) 0
  store16 m (p + 2) (checksum (behind m p) (ipTot - ipHdr))

def handleIcmp : Host × List Output :=
  let ipHdr := ipHdrLen data
  let ipTot := ipTotalLen data
  if len < ipHdr + icmpHeaderLen ∨ ipTot < ipHdr + icmpHeaderLen then (host, [])
  else if data ipHdr = icmpEchoRequest ∧ ipDest data = host.ourIp then
    let total := ethHeaderLen + ipTot
    if total > packetBufSize then (host, [])
    else
      let reply := echoReply host data srcMac ipHdr
      ({ host with replyBuf := reply }, [.frame (bytesOf reply total)])
  else if data ipHdr = icmpEchoReply ∧ ipDest data = host.ourIp then
    ({ host with pingResponses := host.pingResponses + 1 }, [])
  else (host, [])

/-- The first active entry of the port is called. -/
def dispatch (ipHdr udpLen : Nat) : List Output :=
  match host.handlers.entries.find? (·.serves (UInt16.ofNat (be16 data (ipHdr + 2)))) with
  | none => []
  | some entry =>
    [.udp entry.handler entry.userdata (ipSrc data) (UInt16.ofNat (load16 data ipHdr))
      (bytesOf (behind data (ipHdr + udpHeaderLen)) (udpLen - udpHeaderLen))]

def handleUdp (ipHdr : Nat) : Host × List Output :=
  let ipTot := ipTotalLen data
  if len < ipHdr + udpHeaderLen ∨ ipTot < ipHdr + udpHeaderLen then (host, [])
  else
    let udp := behind data ipHdr
    let udpLen := be16 data (ipHdr + 4)
    if udpLen < udpHeaderLen ∨ udpLen > ipTot - ipHdr then (host, [])
    else
      let saved := load16 udp 6
      if saved = 0 then (host, dispatch host data ipHdr udpLen)
      else
        let (computed, scratch) :=
          udpChecksum host.checksumBuf (ipSrc data) (ipDest data) (withoutChecksum udp) udpLen
        let host := { host with checksumBuf := scratch }
        if saved ≠ computed then (host, []) else (host, dispatch host data ipHdr udpLen)

def handleIp : Host × List Output :=
  if len < ipHeaderLen then (host, [])
  else
    let ipHdr := ipHdrLen data
    if len < ipHdr then (host, [])
    else if checksum data ipHdr ≠ 0 then (host, [])
    else
      let host := { host with arpCache := arpAdd host.arpCache (ipSrc data) srcMac }
      if ipDest data ≠ host.ourIp then (host, [])
      else if ipProtocol data = ipProtoIcmp then handleIcmp host data len srcMac
      else if ipProtocol data = ipProtoUdp then handleUdp host data len ipHdr
      else if ipProtocol data = ipProtoTcp then
        let (conn, out) := handleTcp ticks data len ipHdr host.conn
        ({ host with conn := conn }, out.map .tcp)
      else (host, [])

end Received

end JexOs.Net
