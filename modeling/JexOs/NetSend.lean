import JexOs.Net

/-!
# What else the stack sends

`net_ping` and the DNS query of `net_dns_resolve` in `src/drivers/net.c`, and `tcp_checksum` and
`send_tcp_segment` of `src/drivers/tcp.c`, up to the frame that is handed to the network card. Waiting
for hardware addresses and the answers to queries are left out.
-/

namespace JexOs.Net

open ByteMem Tcp List

/-! ### Echo requests -/

/-- `net_ping`: the frame, unless the hardware address is not known. -/
def netPing (destIp : UInt32) (icmpSeq : UInt16) (host : Host) : Option (List UInt8) := do
  let destMac ← resolveMac host destIp
  let icmpDataLen := 32
  let ipDataLen := icmpHeaderLen + icmpDataLen
  let p := ethHeaderLen + ipHeaderLen
  let m := buildEtherHeader host.sendBuf destMac host.ourMac ethertypeIp
  let m := buildIpHeader m ethHeaderLen ipProtoIcmp host.ourIp destIp ipDataLen host.ipId
  let m := store8 m p icmpEchoRequest
  let m := store8 m (p + 1) 0
  let m := store16 m (p + 2) 0
  let m := storeBe16 m (p + 4) 0x1337
  let m := storeBe16 m (p + 6) icmpSeq.toNat
  let m := blit m (p + icmpHeaderLen) icmpDataLen UInt8.ofNat
  let m := store16 m (p + 2) (checksum (behind m p) ipDataLen)
  some (bytesOf m (p + ipDataLen))

/-! ### DNS queries -/

def dot : UInt8 := 46

theorem length_tail_dropWhile_lt {hostname : List UInt8} (h : hostname ≠ []) :
    (hostname.dropWhile (· ≠ dot)).tail.length < hostname.length := by
  have hle := (hostname.dropWhile_suffix (· ≠ dot)).length_le
  have hpos := length_pos_iff.mpr h
  rw [length_tail]
  omega

/-- The loop of `dns_encode_name`, with what has been written. -/
def encodeLabels (outLen : Nat) (out hostname : List UInt8) : Option (List UInt8) :=
  if _h : hostname = [] then some out
  else
    let label := hostname.takeWhile (· ≠ dot)
    if label.length > 63 then none
    else if out.length + label.length + 2 > outLen then none
    else
      encodeLabels outLen (out ++ [UInt8.ofNat label.length] ++ label)
        (hostname.dropWhile (· ≠ dot)).tail
termination_by hostname.length
decreasing_by exact length_tail_dropWhile_lt ‹_›

def dnsEncodeName (hostname : List UInt8) (outLen : Nat) : Option (List UInt8) := do
  let out ← encodeLabels outLen [] hostname
  if out.length + 1 > outLen then none else some (out ++ [0])

def be16Bytes (v : UInt16) : List UInt8 := [byteOf v.toNat 1, byteOf v.toNat 0]

/-- What the loop of `dns_encode_name` has written when it ends, also where the name is refused. -/
def writtenLabels (outLen : Nat) (out hostname : List UInt8) : List UInt8 :=
  if _h : hostname = [] then out
  else
    let label := hostname.takeWhile (· ≠ dot)
    if label.length > 63 then out
    else if out.length + label.length + 2 > outLen then out
    else
      writtenLabels outLen (out ++ [UInt8.ofNat label.length] ++ label)
        (hostname.dropWhile (· ≠ dot)).tail
termination_by hostname.length
decreasing_by exact length_tail_dropWhile_lt ‹_›

/-- `sizeof(query) - qlen - 4`, where `query` is a pointer. -/
def dnsNameRoom : UInt32 := 4 - 12 - 4

/-- The size of the array that `query` points to. -/
def dnsQuerySize : Nat := 512

/-- What `net_dns_resolve` has written from `query` on, and whether it sends it. The name is refused where
its length is negative as an `int`. -/
def dnsQueryWritten (xid : UInt16) (hostname : List UInt8) : List UInt8 × Bool :=
  let header := be16Bytes xid ++ be16Bytes 0x0100 ++ be16Bytes 1 ++ [0, 0, 0, 0, 0, 0]
  match dnsEncodeName hostname dnsNameRoom.toNat with
  | none => (header ++ writtenLabels dnsNameRoom.toNat [] hostname, false)
  | some name =>
    if name.length ≥ 2 ^ 31 then (header ++ name, false)
    else (header ++ name ++ be16Bytes 1 ++ be16Bytes 1, true)

/-- The query that `net_dns_resolve` sends, where it stays inside its array. -/
def dnsQuery (xid : UInt16) (hostname : List UInt8) : Option (List UInt8) :=
  let (query, sent) := dnsQueryWritten xid hostname
  if sent ∧ query.length ≤ dnsQuerySize then some query else none

def dnsPort : UInt16 := 53
def dnsClientPort : UInt16 := 54321

/-! ### Segments -/

def tcpTxBufSize : Nat := 2048
def tcpPseudoLen : Nat := 12

def tcpPseudo (buf : Mem) (srcIp destIp : UInt32) (segLen : Nat) : Mem :=
  let m := store32 buf 0 srcIp.toNat
  let m := store32 m 4 destIp.toNat
  let m := store8 m 8 0
  let m := store8 m 9 ipProtoTcp
  storeBe16 m 10 segLen

def tcpChecksum (buf : Mem) (srcIp destIp : UInt32) (seg : Mem) (segLen : Nat) : Nat :=
  if tcpPseudoLen + segLen > tcpPseudoLen + tcpTxBufSize then 0
  else
    let buf := blit (tcpPseudo buf srcIp destIp segLen) tcpPseudoLen segLen seg
    let sum := checksum buf (tcpPseudoLen + segLen)
    if sum = 0 then 0xFFFF else sum

/-- A `SYN` carries the maximum segment size. -/
def tcpOptions (flags : UInt8) : List UInt8 :=
  if flags &&& tcpSyn ≠ 0 then [2, 4, 0x05, 0xB4] else []

/-- `send_tcp_segment` with the hardware address of the peer and its two static buffers. -/
def sendTcpSegment (pktBuf checksumBuf : Mem) (dstMac : Mac) (host : Host) (c : Conn)
    (segment : Sent) : List UInt8 :=
  let options := tcpOptions segment.flags
  let dataOffset := tcpHeaderSize + options.length
  let tcpSegLen := dataOffset + segment.payload.length
  let p := ethHeaderLen + ipHeaderLen
  let m := buildEtherHeader pktBuf dstMac host.ourMac ethertypeIp
  let m := buildIpHeader m ethHeaderLen ipProtoTcp host.ourIp c.remoteIp tcpSegLen host.ipId
  let m := storeBe16 m p c.localPort.toNat
  let m := storeBe16 m (p + 2) c.remotePort.toNat
  let m := storeBe32 m (p + 4) segment.seq.toNat
  let m := storeBe32 m (p + 8) segment.ack.toNat
  let m := store8 m (p + 12) (UInt8.ofNat (dataOffset / 4 * 16))
  let m := store8 m (p + 13) segment.flags
  let m := storeBe16 m (p + 14) tcpRxBufSize
  let m := store16 m (p + 16) 0
  let m := store16 m (p + 18) 0
  let m := blit m (p + tcpHeaderSize) options.length fun k => options.getD k 0
  let m := blit m (p + dataOffset) segment.payload.length fun k => segment.payload.getD k 0
  let m := store16 m (p + 16)
    (tcpChecksum checksumBuf host.ourIp c.remoteIp (behind m p) tcpSegLen)
  bytesOf m (p + tcpSegLen)

end JexOs.Net
