import JexOs.Net

/-!
# The DHCP client

`dhcp_handler`, `dhcp_find_option`, `dhcp_send_msg` and `dhcp_start` of `src/drivers/net.c`, with the
message layout of `src/include/dhcp.h`. A message arrives between any two steps of `dhcp_start`, which
is therefore modelled access by access to what it shares with the handler. Log and terminal output is
left out.
-/

namespace JexOs.Dhcp

open ByteMem Tcp Net

def dhcpServerPort : Nat := 67
def dhcpClientPort : Nat := 68

def dhcpDiscover : UInt8 := 1
def dhcpOffer : UInt8 := 2
def dhcpRequest : UInt8 := 3
def dhcpAck : UInt8 := 5

def dhcpOptPad : UInt8 := 0
def dhcpOptSubnet : UInt8 := 1
def dhcpOptGateway : UInt8 := 3
def dhcpOptDns : UInt8 := 6
def dhcpOptRequestedIp : UInt8 := 50
def dhcpOptMsgType : UInt8 := 53
def dhcpOptServerId : UInt8 := 54
def dhcpOptParamReq : UInt8 := 55
def dhcpOptEnd : UInt8 := 255

def dhcpMagicCookie : Nat := 0x63825363

/-! ### `dhcp_packet_t` -/

def xidOffset : Nat := 4
def flagsOffset : Nat := 10
def yiaddrOffset : Nat := 16
def chaddrOffset : Nat := 28
def magicOffset : Nat := 236

/-- `sizeof(dhcp_packet_t) without options`, says the header. -/
def dhcpBaseSize : Nat := 236

theorem dhcpBaseSize_eq : dhcpBaseSize = 236 := rfl

attribute [irreducible] dhcpBaseSize

def dhcpReplySize : Nat := 512

def memOf (bytes : List UInt8) : Mem := fun k => bytes.getD k 0

/-! ### Options of a message -/

/-- What one pass of the loop of `dhcp_find_option` does. -/
inductive Walk where
  | again (pos : Nat)
  | found (offset : Nat)
  | absent
  | outside
deriving DecidableEq, Repr

/-- One pass at a position. A read behind the message is `outside`. -/
def walkStep (msg : List UInt8) (tag : UInt8) (pos : Nat) : Walk :=
  let remain := msg.length - dhcpBaseSize
  if pos < remain then
    match msg[dhcpBaseSize + pos]? with
    | none => .outside
    | some t =>
      if t = dhcpOptEnd then .absent
      else if t = dhcpOptPad then .again (pos + 1)
      else if pos + 1 ≥ remain then .absent
      else
        match msg[dhcpBaseSize + (pos + 1)]? with
        | none => .outside
        | some optLen =>
          if pos + 2 + optLen.toNat > remain then .absent
          else if t = tag then .found (dhcpBaseSize + (pos + 2))
          else .again (pos + 2 + optLen.toNat)
  else .absent

/-- The loop; the result is the offset of the value, if there is one, and nothing when a byte behind the
message is read. Every pass gets further into the message, so its length is enough fuel. -/
def walk (msg : List UInt8) (tag : UInt8) : Nat → Nat → Option (Option Nat)
  | 0, _ => none
  | fuel + 1, pos =>
    match walkStep msg tag pos with
    | .again next => walk msg tag fuel next
    | .found offset => some (some offset)
    | .absent => some none
    | .outside => none

def dhcpFindOption (msg : List UInt8) (tag : UInt8) : Option (Option Nat) :=
  if msg.length < dhcpBaseSize then some none else walk msg tag (msg.length + 1) 0

/-! ### Messages that are sent -/

def ipBytes (ip : UInt32) : List UInt8 := (List.range 4).map (byteOf ip.toNat)

/-- `opt_buf`. -/
def dhcpOptions (msgType : UInt8) (requestedIp serverId : UInt32) : List UInt8 :=
  [dhcpOptMsgType, 1, msgType] ++
    (if msgType = dhcpRequest then
      [dhcpOptRequestedIp, 4] ++ ipBytes requestedIp ++ [dhcpOptServerId, 4] ++ ipBytes serverId
    else []) ++
    [dhcpOptParamReq, 3, dhcpOptSubnet, dhcpOptGateway, dhcpOptDns] ++ [dhcpOptEnd]

def broadcastMac : Mac := fun _ => 0xFF
def broadcastIp : UInt32 := 0xFFFFFFFF

/-- The message at `d`: the fixed part, the cookie, and the options. -/
def dhcpMessage (m : Mem) (d : Nat) (xid : UInt32) (ourMac : Mac) (options : List UInt8) : Mem :=
  let m := blit m d dhcpBaseSize fun _ => 0
  let m := store8 m d 1
  let m := store8 m (d + 1) 1
  let m := store8 m (d + 2) 6
  let m := storeBe32 m (d + xidOffset) xid.toNat
  let m := storeBe16 m (d + flagsOffset) 0x8000
  let m := blit m (d + chaddrOffset) 6 (macBytes ourMac)
  let m := storeBe32 m (d + magicOffset) dhcpMagicCookie
  blit m (d + dhcpBaseSize) options.length (memOf options)

/-- `dhcp_send_msg`: the frame that goes out. -/
def dhcpSendMsg (msgType : UInt8) (requestedIp serverId xid : UInt32) (host : Host) : List UInt8 × Host :=
  let options := dhcpOptions msgType requestedIp serverId
  let dhcpLen := dhcpBaseSize + options.length
  let udpLen := udpHeaderLen + dhcpLen
  let p := ethHeaderLen + ipHeaderLen
  let m := buildEtherHeader host.sendBuf broadcastMac host.ourMac ethertypeIp
  let m := buildIpHeader m ethHeaderLen ipProtoUdp 0 broadcastIp udpLen host.ipId
  let m := storeBe16 m p dhcpClientPort
  let m := storeBe16 m (p + 2) dhcpServerPort
  let m := storeBe16 m (p + 4) udpLen
  let m := store16 m (p + 6) 0
  let m := dhcpMessage m (p + udpHeaderLen) xid host.ourMac options
  let m := storeBe16 m (ethHeaderLen + 2) (ipHeaderLen + udpLen)
  let m := store16 m (ethHeaderLen + 10) 0
  let m := store16 m (ethHeaderLen + 10) (checksum (behind m ethHeaderLen) ipHeaderLen)
  let (csum, scratch) := udpChecksum host.checksumBuf 0 broadcastIp (behind m p) udpLen
  let m := store16 m (p + 6) (if csum = 0 then 0xFFFF else csum)
  (bytesOf m (p + udpLen),
    { host with
      ipId := host.ipId + 1
      sendBuf := m
      checksumBuf := scratch })

/-! ### Messages that arrive -/

/-- A message that the handler has stored, and the transaction it was stored for. -/
structure Taken where
  data : Mem
  len : Nat
  xid : UInt32

/-- The static variables of the client. `taken` is what has been stored in this call, the last message
last. -/
structure Client where
  pending : Bool
  xid : UInt32
  reply : Mem
  replyLen : Nat
  taken : List Taken

/-- The checks of `dhcp_handler`. -/
def accepts (xid : UInt32) (data : Mem) (len : Nat) : Prop :=
  dhcpBaseSize ≤ len ∧ be32 data xidOffset = xid.toNat ∧ be32 data magicOffset = dhcpMagicCookie

instance (xid : UInt32) (data : Mem) (len : Nat) : Decidable (accepts xid data len) :=
  inferInstanceAs (Decidable (_ ∧ _ ∧ _))

def dhcpHandler (data : Mem) (len : Nat) (c : Client) : Client :=
  if accepts c.xid data len then
    let copy := if len > dhcpReplySize then dhcpReplySize else len
    { c with
      reply := blit c.reply 0 copy data
      replyLen := copy
      pending := true
      taken := c.taken ++
        [{ data := data
           len := len
           xid := c.xid }] }
  else c

/-! ### `dhcp_start` -/

/-- Where `dhcp_start` is, with the local variables that are used from there on. -/
inductive Place where
  | head
  | discover
  | sendDiscover
  | waitOffer (timeout : Nat)
  | haveOffer
  | takeOffer
  | offeredIp
  | serverId (offered : UInt32) (len pos : Nat)
  | copyServer (offered : UInt32) (sid : Nat)
  | request (offered server : UInt32)
  | sendRequest (offered server : UInt32)
  | waitAck (timeout : Nat)
  | haveAck
  | checkAck
  | setIp
  | setGateway
  | startGateway
  | findGateway (len pos : Nat)
  | copyGateway (gw : Nat)
  | startDns
  | findDns (len pos : Nat)
  | copyDns (dns : Nat)
  | finish (result : Int)
  | returned (result : Int)
deriving DecidableEq, Repr

/-- The client, the addresses it configures, and the loop of `dhcp_start`. -/
structure World where
  client : Client
  ourIp : UInt32
  gatewayIp : UInt32
  dnsServer : UInt32
  attempt : Nat
  place : Place

/-- What happens in the course of a call: a message reaches the handler, or `dhcp_start` goes on. -/
inductive Event where
  | message (data : Mem) (len : Nat)
  | go

def ipAt (m : Mem) (a : Nat) : UInt32 := UInt32.ofNat (load32 m a)

/-- The loop is tried again. -/
def World.retry (w : World) : World :=
  { w with
    attempt := w.attempt + 1
    place := .head }

def World.at (w : World) (place : Place) : World := { w with place := place }

def World.clear (w : World) (place : Place) : World :=
  { w with
    client := { w.client with pending := false }
    place := place }

/-- A pass of a walk through the options of the reply, whose length was read when the walk began. -/
def World.walks (w : World) (tag : UInt8) (len pos : Nat) (again : Nat → Place) (found : Nat → World)
    (absent : World) : World :=
  match walkStep (bytesOf w.client.reply len) tag pos with
  | .again next => w.at (again next)
  | .found offset => found offset
  | .absent => absent
  | .outside => absent

def go (w : World) : World :=
  match w.place with
  | .head => if w.attempt < 3 then w.clear .discover else w.at (.finish (-1))
  | .discover =>
    { w with
      client := { w.client with xid := w.client.xid + 1 }
      place := .sendDiscover }
  | .sendDiscover => w.at (.waitOffer 600)
  | .waitOffer timeout =>
    if timeout > 0 ∧ ¬ w.client.pending then w.at (.waitOffer (timeout - 1)) else w.at .haveOffer
  | .haveOffer => if w.client.pending then w.at .takeOffer else w.retry
  | .takeOffer => w.clear .offeredIp
  | .offeredIp => w.at (.serverId (ipAt w.client.reply yiaddrOffset) w.client.replyLen 0)
  | .serverId offered len pos =>
    w.walks dhcpOptServerId len pos (.serverId offered len)
      (fun sid => if offered = 0 then w.retry else w.at (.copyServer offered sid)) w.retry
  | .copyServer offered sid => w.at (.request offered (ipAt w.client.reply sid))
  | .request offered server => w.clear (.sendRequest offered server)
  | .sendRequest _ _ => w.at (.waitAck 600)
  | .waitAck timeout =>
    if timeout > 0 ∧ ¬ w.client.pending then w.at (.waitAck (timeout - 1)) else w.at .haveAck
  | .haveAck => if w.client.pending then w.at .checkAck else w.retry
  | .checkAck => if ipAt w.client.reply yiaddrOffset = 0 then w.retry else w.at .setIp
  | .setIp =>
    { w with
      ourIp := ipAt w.client.reply yiaddrOffset
      place := .setGateway }
  | .setGateway =>
    { w with
      gatewayIp := w.ourIp
      place := .startGateway }
  | .startGateway => w.at (.findGateway w.client.replyLen 0)
  | .findGateway len pos =>
    w.walks dhcpOptGateway len pos (.findGateway len) (fun gw => w.at (.copyGateway gw))
      (w.at .startDns)
  | .copyGateway gw =>
    { w with
      gatewayIp := ipAt w.client.reply gw
      place := .startDns }
  | .startDns => w.at (.findDns w.client.replyLen 0)
  | .findDns len pos =>
    w.walks dhcpOptDns len pos (.findDns len) (fun dns => w.at (.copyDns dns)) (w.at (.finish 0))
  | .copyDns dns =>
    { w with
      dnsServer := ipAt w.client.reply dns
      place := .finish 0 }
  | .finish result => w.at (.returned result)
  | .returned _ => w

/-- The handler is registered until `dhcp_start` has returned. -/
def step (w : World) : Event → World
  | .message data len =>
    match w.place with
    | .returned _ => w
    | _ => { w with client := dhcpHandler data len w.client }
  | .go => go w

def run (w : World) (events : List Event) : World := events.foldl step w

/-- `dhcp_start` is called. -/
def start (ticks : UInt32) (w : World) : World :=
  { w with
    client :=
      { w.client with
        xid := if w.client.xid = 0 then ticks ^^^ 0x12345678 else w.client.xid
        taken := [] }
    attempt := 0
    place := .head }

end JexOs.Dhcp
