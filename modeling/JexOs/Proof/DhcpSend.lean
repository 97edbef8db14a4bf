import JexOs.Proof.DhcpOptions
import JexOs.Proof.NetUdp

/-!
# Messages that are sent

The options are copied to where the cookie was stored just before.
-/

namespace JexOs.Dhcp

open ByteMem Tcp Net List

section Bytes

variable {m : Mem} {a n : Nat}

theorem bytesOf_getElem? (m : Mem) (n k : Nat) : (bytesOf m n)[k]? = if k < n then some (m k) else none := by
  rw [bytesOf, getElem?_map]
  by_cases hk : k < n
  · rw [if_pos hk, getElem?_range hk]
    rfl
  · rw [if_neg hk, getElem?_eq_none (by rw [length_range]; exact Nat.le_of_not_lt hk)]
    rfl

theorem drop_bytesOf (m : Mem) (a n : Nat) : (bytesOf m (a + n)).drop a = bytesOf (behind m a) n := by
  refine ext_getElem? fun k => ?_
  rw [getElem?_drop, bytesOf_getElem?, bytesOf_getElem?]
  exact if_congr (by omega) rfl rfl

theorem bytesOf_memOf (bytes : List UInt8) : bytesOf (memOf bytes) bytes.length = bytes := by
  refine ext_getElem? fun k => ?_
  rw [bytesOf_getElem?, memOf, getD_eq_getElem?_getD]
  by_cases hk : k < bytes.length
  · rw [if_pos hk, getElem?_eq_getElem hk]
    rfl
  · rw [if_neg hk, getElem?_eq_none (Nat.le_of_not_lt hk)]

theorem bytesOf_congr {m' : Mem} (h : ∀ k < n, m' k = m k) : bytesOf m' n = bytesOf m n :=
  map_congr_left fun k hk => h k (mem_range.mp hk)

end Bytes

inductive Ended : List UInt8 → Prop where
  | stop (rest : List UInt8) : Ended (dhcpOptEnd :: rest)
  | pad (rest : List UInt8) (h : Ended rest) : Ended (dhcpOptPad :: rest)
  | option (t len : UInt8) (rest : List UInt8) (hpad : t ≠ dhcpOptPad) (hend : t ≠ dhcpOptEnd)
      (hlen : len.toNat ≤ rest.length) (h : Ended (rest.drop len.toNat)) : Ended (t :: len :: rest)

/-- The value of the first option with a tag: its length is the byte in front of it. -/
def HasOption (opts : List UInt8) (tag : UInt8) (value : List UInt8) : Prop :=
  ∃ n, Finds tag opts n ∧ opts[n - 1]? = some (UInt8.ofNat value.length) ∧
    (opts.drop n).take value.length = value

/-- The options are a list behind the cookie that says what was asked for, and such a reply passes the handler. -/
structure WellBuilt (msg : List UInt8) (msgType : UInt8) (requestedIp serverId xid : UInt32) : Prop where
  cookie : (msg.drop magicOffset).take 4 = [0x63, 0x82, 0x53, 0x63]
  ended : Ended (msg.drop optionsOffset)
  type : HasOption (msg.drop optionsOffset) dhcpOptMsgType [msgType]
  requested : if msgType = dhcpRequest then
      HasOption (msg.drop optionsOffset) dhcpOptRequestedIp (ipBytes requestedIp)
    else ∀ n, ¬ Finds dhcpOptRequestedIp (msg.drop optionsOffset) n
  server : if msgType = dhcpRequest then
      HasOption (msg.drop optionsOffset) dhcpOptServerId (ipBytes serverId)
    else ∀ n, ¬ Finds dhcpOptServerId (msg.drop optionsOffset) n
  reply : ∀ data, be32 data xidOffset = xid.toNat →
    (bytesOf data msg.length).drop magicOffset = msg.drop magicOffset → accepts xid data msg.length

section Send

variable (msgType : UInt8) (requestedIp serverId xid : UInt32) (host : Host)

def sentMessage : List UInt8 :=
  (dhcpSendMsg msgType requestedIp serverId xid host).1.drop
    (ethHeaderLen + ipHeaderLen + udpHeaderLen)

def dhcpFrame (options : List UInt8) : Mem :=
  let udpLen := udpHeaderLen + (dhcpBaseSize + options.length)
  let p := ethHeaderLen + ipHeaderLen
  let m := buildEtherHeader host.sendBuf broadcastMac host.ourMac ethertypeIp
  let m := buildIpHeader m ethHeaderLen ipProtoUdp 0 broadcastIp udpLen host.ipId
  let m := storeBe16 m p dhcpClientPort
  let m := storeBe16 m (p + 2) dhcpServerPort
  let m := storeBe16 m (p + 4) udpLen
  let m := store16 m (p + 6) 0
  let m := dhcpMessage m (p + udpHeaderLen) xid host.ourMac options
  let m := storeBe16 m (ethHeaderLen + 2) (ipHeaderLen + udpLen)
  let m := store16 m (ethHeaderLen + 10) 0
  store16 m (ethHeaderLen + 10) (checksum (behind m ethHeaderLen) ipHeaderLen)

theorem dhcpFrame_options (options : List UInt8) {k : Nat} (hk : k < options.length) :
    dhcpFrame xid host options (278 + k) = memOf options k := by
  unfold dhcpFrame store16 storeBe16 dhcpMessage
  dsimp only [ethHeaderLen, ipHeaderLen, udpHeaderLen]
  rw [blit_of_ge (by omega), blit_of_ge (by omega), blit_of_ge (by omega), dhcpBaseSize_eq]
  exact blit_add hk

def dhcpUdpLen (options : List UInt8) : Nat := udpHeaderLen + (dhcpBaseSize + options.length)

def sentChecksum (options : List UInt8) : Nat :=
  let csum := (udpChecksum host.checksumBuf 0 broadcastIp
    (behind (dhcpFrame xid host options) (ethHeaderLen + ipHeaderLen)) (dhcpUdpLen options)).1
  if csum = 0 then 0xFFFF else csum

theorem dhcpSendMsg_frame : (dhcpSendMsg msgType requestedIp serverId xid host).1 =
    let options := dhcpOptions msgType requestedIp serverId
    bytesOf (store16 (dhcpFrame xid host options) (ethHeaderLen + ipHeaderLen + 6)
      (sentChecksum xid host options)) (ethHeaderLen + ipHeaderLen + dhcpUdpLen options) := by
  rfl

theorem sentMessage_drop : (sentMessage msgType requestedIp serverId xid host).drop magicOffset =
    dhcpOptions msgType requestedIp serverId := by
  rw [sentMessage, drop_drop, dhcpSendMsg_frame]
  dsimp only
  generalize dhcpOptions msgType requestedIp serverId = options
  have hlength : ethHeaderLen + ipHeaderLen + dhcpUdpLen options = 278 + options.length := by
    unfold dhcpUdpLen ethHeaderLen ipHeaderLen udpHeaderLen
    rw [dhcpBaseSize_eq]
    omega
  rw [hlength]
  have hoffset : ethHeaderLen + ipHeaderLen + udpHeaderLen + magicOffset = 278 := rfl
  rw [hoffset, drop_bytesOf]
  refine Eq.trans (bytesOf_congr fun k hk => ?_) (bytesOf_memOf options)
  have haddr : ethHeaderLen + ipHeaderLen + 6 = 40 := rfl
  rw [behind, store16, haddr, blit_of_ge (by omega)]
  exact dhcpFrame_options xid host options hk

theorem dhcpOptions_head : (dhcpOptions msgType requestedIp serverId).take 1 = [dhcpOptMsgType] := rfl

theorem sentMessage_cookie : ((sentMessage msgType requestedIp serverId xid host).drop magicOffset).take 4 ≠
    [0x63, 0x82, 0x53, 0x63] := by
  intro hcookie
  rw [sentMessage_drop] at hcookie
  have hfirst := congrArg (List.take 1) hcookie
  exact absurd (hfirst.symm.trans (dhcpOptions_head msgType requestedIp serverId)) (by decide)

/-- No message is built as it should be. -/
theorem sentMessage_not_wellBuilt :
    ¬ WellBuilt (sentMessage msgType requestedIp serverId xid host) msgType requestedIp serverId xid :=
  fun h => sentMessage_cookie msgType requestedIp serverId xid host h.cookie

theorem discover_not_wellBuilt : ¬ ∀ msgType requestedIp serverId xid host,
    WellBuilt (sentMessage msgType requestedIp serverId xid host) msgType requestedIp serverId xid :=
  fun h => sentMessage_cookie dhcpDiscover 0 0 1 trialHost (h dhcpDiscover 0 0 1 trialHost).cookie

end Send

end JexOs.Dhcp
