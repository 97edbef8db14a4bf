import JexOs.Proof.NetInput
import JexOs.Proof.NetSendBound

/-!
# A broadcast reply

What it takes for a broadcast reply to get from `handle_ip` through the UDP checksum and the table of
handlers into the client's buffer.
-/

namespace JexOs.Dhcp

open ByteMem Tcp Net List

section Sum

variable {m : Mem} {f len : Nat}

theorem byteOf_load16 (m : Mem) (a : Nat) {k : Nat} (hk : k < 2) : byteOf (load16 m a) k = m (a + k) := by
  have h0 := (m a).toNat_lt
  have h1 := (m (a + 1)).toNat_lt
  refine UInt8.toNat_inj.mp ?_
  rw [toNat_byteOf]
  unfold load16
  rcases (by omega : k = 0 ∨ k = 1) with rfl | rfl
  · change _ = (m a).toNat
    omega
  · omega

theorem field_of_checksum (hlen : len ≤ 65535) (hf : f % 2 = 0) (hfit : f + 2 ≤ len)
    (hfield : load16 m f ≠ 0) (hsum : checksum m len = 0) :
    (if checksum (store16 m f 0) len = 0 then 0xFFFF else checksum (store16 m f 0) len) = load16 m f := by
  have hback : ∀ k < len, store16 (store16 m f 0) f (load16 m f) k = m k := by
    intro k _
    by_cases hin : f ≤ k ∧ k < f + 2
    · rw [store16, blit_of_mem hin.1 hin.2, byteOf_load16 m f (by omega)]
      exact congrArg m (by omega)
    · rw [store16, blit_of_not_mem hin]
      exact blit_of_not_mem hin
  have hstore : sumBytes m len = sumBytes (store16 m f 0) len + load16 m f := by
    rw [← sumBytes_congr hback]
    exact sumBytes_store16 hlen hf hfit (load16_lt m f) (load16_store16_zero m f)
  have hword := load16_lt m f
  unfold checksum at *
  rw [hstore, fold_of_pos (by omega)] at hsum
  rcases Nat.eq_zero_or_pos (sumBytes (store16 m f 0) len) with hzero | hpos
  · rw [hzero, fold_zero, if_neg (by decide)]
    omega
  · rw [fold_of_pos hpos]
    split <;> omega

theorem udpChecksum_eq (buf : Mem) (srcIp destIp : UInt32) (udp : Mem) {n : Nat} (hn : n ≤ 1500) :
    (udpChecksum buf srcIp destIp udp n).1 =
      if checksum (blit (pseudoOf buf srcIp destIp ipProtoUdp n) 12 n udp) (12 + n) = 0 then 0xFFFF
      else checksum (blit (pseudoOf buf srcIp destIp ipProtoUdp n) 12 n udp) (12 + n) := by
  unfold udpChecksum
  rw [if_neg (by omega)]
  rfl

theorem checksum_without (buf buf' : Mem) (srcIp destIp : UInt32) (udp : Mem) {n : Nat} :
    checksum (blit (pseudoOf buf srcIp destIp ipProtoUdp n) 12 n (withoutChecksum udp)) (12 + n) =
      checksum (store16 (blit (pseudoOf buf' srcIp destIp ipProtoUdp n) 12 n udp) 18 0) (12 + n) := by
  refine checksum_congr fun k hk => ?_
  unfold withoutChecksum store16
  by_cases hlow : k < 12
  · rw [blit_of_lt hlow, blit_of_lt (by omega), blit_of_lt hlow]
    exact pseudoOf_congr hlow
  rw [blit_of_mem (Nat.le_of_not_lt hlow) hk]
  by_cases hin : 18 ≤ k ∧ k < 18 + 2
  · rw [blit_of_mem hin.1 hin.2, blit_of_mem (by omega) (by omega)]
    exact congrArg (byteOf 0) (by omega)
  · rw [blit_of_not_mem hin, blit_of_not_mem (by omega), blit_of_mem (Nat.le_of_not_lt hlow) hk]

end Sum

theorem udpPasses_of_verifies {host : Host} {d : Mem} (hleast : 8 ≤ be16 d (ipHdrLen d + 4))
    (hmost : be16 d (ipHdrLen d + 4) ≤ 1500) (hprotocol : ipProtocol d = ipProtoUdp)
    (hsum : load16 d (ipHdrLen d + 6) = 0 ∨ transportSum d (be16 d (ipHdrLen d + 4)) = 0) :
    UdpPasses host d := by
  by_cases hzero : load16 d (ipHdrLen d + 6) = 0
  · exact .inl hzero
  have hverifies := hsum.resolve_left hzero
  generalize hn : be16 d (ipHdrLen d + 4) = n at *
  have hplace (k : Nat) (hk : k < 2) : (blit (pseudoOf (fun _ => 0) (ipSrc d) (ipDest d) ipProtoUdp n) 12 n
      (behind d (ipHdrLen d))) (18 + k) = d (ipHdrLen d + 6 + k) := by
    rw [blit_of_mem (by omega) (by omega)]
    exact congrArg d (by omega)
  have hfield : load16 (blit (pseudoOf (fun _ => 0) (ipSrc d) (ipDest d) ipProtoUdp n) 12 n
      (behind d (ipHdrLen d))) 18 = load16 d (ipHdrLen d + 6) := by
    have h0 := hplace 0 (by decide)
    have h1 := hplace 1 (by decide)
    exact congrArg₂ (fun (a b : UInt8) => a.toNat + 256 * b.toNat) h0 h1
  unfold transportSum at hverifies
  rw [hprotocol] at hverifies
  have hright := field_of_checksum (f := 18) (by omega) (by decide) (by omega)
    (by rw [hfield]; exact hzero) hverifies
  rw [hfield] at hright
  refine .inr ?_
  rw [hn, udpChecksum_eq _ _ _ _ hmost, checksum_without host.checksumBuf (fun _ => 0) (ipSrc d) (ipDest d) _]
  exact hright.symm

def handled (code : UInt32) (c : Client) (out : List Net.Output) : Client :=
  out.foldl (fun c o => match o with
    | .udp handler _ _ _ payload =>
      if handler = code then dhcpHandler (memOf payload) payload.length c else c
    | _ => c) c

/-- The host while `dhcp_start` waits: the handler of port 68 was registered, if there was room. -/
def listening (code : UInt32) (host : Host) : Host :=
  match h : netUdpRegister 68 code 0 host.handlers.entries with
  | none => host
  | some entries =>
    { host with
      handlers :=
        { entries := entries
          length_eq := (netUdpRegister_unique host.handlers.unique h).2.1.trans host.handlers.length_eq
          unique := (netUdpRegister_unique host.handlers.unique h).1 } }

def payloadLen (d : Mem) : Nat := be16 d (ipHdrLen d + 4) - udpHeaderLen

def payload (d : Mem) : Mem := behind d (ipHdrLen d + udpHeaderLen)

structure BroadcastReply (xid : UInt32) (d : Mem) (len : Nat) : Prop where
  bounds : InBounds d len
  header : HeaderVerifies d
  dest : ipDest d = broadcastIp
  protocol : ipProtocol d = ipProtoUdp
  port : be16 d (ipHdrLen d + 2) = dhcpClientPort
  least : udpHeaderLen + (magicOffset + 4) ≤ be16 d (ipHdrLen d + 4)
  most : be16 d (ipHdrLen d + 4) ≤ ipTotalLen d - ipHdrLen d
  sum : load16 d (ipHdrLen d + 6) = 0 ∨ transportSum d (be16 d (ipHdrLen d + 4)) = 0
  xid : be32 (payload d) xidOffset = xid.toNat
  cookie : be32 (payload d) magicOffset = dhcpMagicCookie

structure Stored (c : Client) (d : Mem) : Prop where
  pending : c.pending = true
  length : c.replyLen = payloadLen d
  bytes : ∀ k < payloadLen d, c.reply k = payload d k

def HasRoom (host : Host) : Prop :=
  ∃ entry ∈ host.handlers.entries, entry.serves 68 = true ∨ entry.active = false

section Way

variable {code : UInt32} {host : Host} {c : Client} {d : Mem} {len : Nat} {srcMac : Mac} {ticks : UInt32}

theorem listening_ourIp (code : UInt32) (host : Host) : (listening code host).ourIp = host.ourIp := by
  unfold listening
  split <;> rfl

theorem netUdpRegister_eq_none_iff {entries : List UdpHandlerEntry} {port : UInt16}
    {code userdata : UInt32} : netUdpRegister port code userdata entries = none ↔
      ¬ ∃ entry ∈ entries, entry.serves port = true ∨ entry.active = false := by
  unfold netUdpRegister
  constructor
  · rintro h ⟨entry, hmem, hentry⟩
    split at h
    · cases h
    · rename_i hserves
      split at h
      · cases h
      · rename_i hactive
        rcases hentry with hentry | hentry
        · exact absurd hentry (by simpa using findIdx?_eq_none_iff.mp hserves entry hmem)
        · exact absurd hentry (by simpa using findIdx?_eq_none_iff.mp hactive entry hmem)
  · intro h
    have hserves : entries.findIdx? (·.serves port) = none :=
      findIdx?_eq_none_iff.mpr fun entry hmem => by
        by_contra hentry
        exact h ⟨entry, hmem, .inl (by simpa using hentry)⟩
    have hactive : entries.findIdx? (fun entry => !entry.active) = none :=
      findIdx?_eq_none_iff.mpr fun entry hmem => by
        by_contra hentry
        exact h ⟨entry, hmem, .inr (by simpa using hentry)⟩
    rw [hserves, hactive]

theorem listening_serves (h : HasRoom host) : ∃ entry ∈ (listening code host).handlers.entries,
    entry.serves 68 = true ∧ entry.handler = code := by
  unfold listening
  split
  · rename_i hnone
    exact absurd h (netUdpRegister_eq_none_iff.mp hnone)
  · rename_i entries hsome
    obtain ⟨-, -, entry, hmem, hserves, hcode, -⟩ := netUdpRegister_unique host.handlers.unique hsome
    exact ⟨entry, hmem, hserves, hcode⟩

theorem listening_unserved (h : ¬ HasRoom host) : listening code host = host ∧
    ¬ ∃ entry ∈ host.handlers.entries, entry.serves 68 = true := by
  constructor
  · unfold listening
    split
    · rfl
    · rename_i entries hsome
      rw [netUdpRegister_eq_none_iff.mpr h] at hsome
      cases hsome
  · rintro ⟨entry, hmem, hserves⟩
    exact h ⟨entry, hmem, .inl hserves⟩

variable (h : BroadcastReply c.xid d len)

include h

theorem BroadcastReply.lengths : UdpLengths d len := by
  have hleast := h.least
  have hmost := h.most
  have htotal := h.bounds.total
  exact
    { header := by omega
      total := by omega
      least := by omega
      most := hmost }

theorem BroadcastReply.accepted (hdest : host.ourIp = broadcastIp) : Accepted host d len :=
  { header := h.bounds.least.trans (h.bounds.header.trans h.bounds.total)
    options := h.bounds.header.trans h.bounds.total
    checksum := headerVerifies_iff.mp h.header
    dest := h.dest.trans hdest.symm }

theorem BroadcastReply.out (hdest : host.ourIp = broadcastIp) : (handleIp host d len srcMac ticks).2 =
      if UdpPasses (learnt host d srcMac) d then
        dispatch (learnt host d srcMac) d (ipHdrLen d) (be16 d (ipHdrLen d + 4))
      else [] := by
  rw [handleIp_of_accepted (h.accepted hdest), if_neg (by rw [h.protocol]; decide), if_pos h.protocol]
  exact handleUdp_of_lengths (learnt host d srcMac) h.lengths

omit h in
theorem memOf_bytesOf {m : Mem} {n k : Nat} (hk : k < n) : memOf (bytesOf m n) k = m k := by
  rw [memOf, getD_eq_getElem?_getD, bytesOf_getElem?, if_pos hk]
  rfl

omit h in
theorem length_bytesOf (m : Mem) (n : Nat) : (bytesOf m n).length = n := by
  rw [bytesOf, length_map, length_range]

omit h in
theorem dhcpHandler_stores {data : Mem} {n : Nat} (h : accepts c.xid data n) :
    (dhcpHandler data n c).pending = true ∧
      (dhcpHandler data n c).replyLen = min n dhcpReplySize ∧
      ∀ k < min n dhcpReplySize, (dhcpHandler data n c).reply k = data k := by
  have hcopy : (if n > dhcpReplySize then dhcpReplySize else n) = min n dhcpReplySize := by
    split <;> omega
  unfold dhcpHandler
  rw [if_pos h]
  refine ⟨rfl, hcopy, fun k hk => ?_⟩
  change blit c.reply 0 (if n > dhcpReplySize then dhcpReplySize else n) data k = data k
  rw [hcopy, blit_of_mem (Nat.zero_le k) (by omega), Nat.sub_zero]

theorem BroadcastReply.accepts :
    accepts c.xid (memOf (bytesOf (payload d) (payloadLen d))) (payloadLen d) := by
  have hlong : magicOffset + 4 ≤ payloadLen d := by
    have hleast := h.least
    unfold payloadLen
    omega
  have hmagic : magicOffset = 236 := rfl
  have hsame {a : Nat} (ha : a + 4 ≤ payloadLen d) :
      be32 (memOf (bytesOf (payload d) (payloadLen d))) a = be32 (payload d) a := by
    unfold be32
    rw [be16_congr fun k _ hk => memOf_bytesOf (by omega), be16_congr fun k _ hk => memOf_bytesOf (by omega)]
  refine ⟨?_, ?_, ?_⟩
  · rw [dhcpBaseSize_eq]
    omega
  · rw [hsame (by unfold xidOffset; omega)]
    exact h.xid
  · rw [hsame hlong]
    exact h.cookie

theorem BroadcastReply.handled_dispatch {host : Host}
    (hserves : ∃ entry ∈ host.handlers.entries, entry.serves 68 = true ∧ entry.handler = code) :
    handled code c (dispatch host d (ipHdrLen d) (be16 d (ipHdrLen d + 4))) =
      dhcpHandler (memOf (bytesOf (payload d) (payloadLen d))) (payloadLen d) c := by
  obtain ⟨entry, hmem, hserves, hcode⟩ := hserves
  unfold dispatch
  rw [h.port, show UInt16.ofNat dhcpClientPort = 68 from rfl, find_serves host.handlers.unique hmem hserves]
  change (if entry.handler = code then dhcpHandler (memOf (bytesOf (payload d) (payloadLen d)))
    (bytesOf (payload d) (payloadLen d)).length c else c) = _
  rw [if_pos hcode, length_bytesOf]

end Way

/-- A broadcast reply is stored where the host has the broadcast address already, with room in table and buffer. -/
theorem broadcastReply_stored_iff (code : UInt32) (host : Host) (c : Client) (d : Mem) (len : Nat)
    (srcMac : Mac) (ticks : UInt32) (hwaits : c.pending = false) (hreply : BroadcastReply c.xid d len) :
    Stored (handled code c (handleIp (listening code host) d len srcMac ticks).2) d ↔
      host.ourIp = broadcastIp ∧ HasRoom host ∧ payloadLen d ≤ dhcpReplySize := by
  have hlost (hout : (handleIp (listening code host) d len srcMac ticks).2 = []) :
      ¬ Stored (handled code c (handleIp (listening code host) d len srcMac ticks).2) d := by
    intro h
    have hpending := h.pending
    rw [hout] at hpending
    exact Bool.noConfusion (hpending.symm.trans hwaits)
  by_cases hdest : host.ourIp = broadcastIp
  · have hlistens : (listening code host).ourIp = broadcastIp := (listening_ourIp code host).trans hdest
    by_cases hroom : HasRoom host
    · have hserves : ∃ entry ∈ (learnt (listening code host) d srcMac).handlers.entries,
          entry.serves 68 = true ∧ entry.handler = code := listening_serves hroom
      obtain ⟨hpending, hlength, hbytes⟩ := dhcpHandler_stores hreply.accepts
      by_cases hfits : payloadLen d ≤ dhcpReplySize
      · have hpasses : UdpPasses (learnt (listening code host) d srcMac) d := by
          have hleast := hreply.least
          have hudp : udpHeaderLen = 8 := rfl
          have hsize : dhcpReplySize = 512 := rfl
          unfold payloadLen at hfits
          exact udpPasses_of_verifies (by omega) (by omega) hreply.protocol hreply.sum
        rw [hreply.out hlistens, if_pos hpasses, hreply.handled_dispatch hserves]
        refine ⟨fun _ => ⟨hdest, hroom, hfits⟩, fun _ => ⟨hpending, ?_, fun k hk => ?_⟩⟩
        · rw [hlength, Nat.min_eq_left hfits]
        · rw [hbytes k (by omega), memOf_bytesOf hk]
      · refine ⟨fun h => ?_, fun h => absurd h.2.2 hfits⟩
        by_cases hpasses : UdpPasses (learnt (listening code host) d srcMac) d
        · have hshort := h.length
          rw [hreply.out hlistens, if_pos hpasses, hreply.handled_dispatch hserves, hlength] at hshort
          omega
        · refine absurd h (hlost ?_)
          rw [hreply.out hlistens, if_neg hpasses]
    · refine ⟨fun h => absurd h (hlost ?_), fun h => absurd h.2.1 hroom⟩
      obtain ⟨hsame, hunserved⟩ := @listening_unserved code host hroom
      rw [hreply.out hlistens, hsame]
      split
      · refine dispatch_of_unserved ?_ _
        rw [hreply.port]
        exact hunserved
      · rfl
  · refine ⟨fun h => absurd h (hlost ?_), fun h => absurd h.1 hdest⟩
    rw [handleIp_of_not_accepted fun haccepted => hdest ?_]
    rw [← listening_ourIp code host, ← haccepted.dest]
    exact hreply.dest

section Trial

def trialReply : Mem := fun k =>
  if k < 28 then [0x45, 0, 1, 12, 0, 0, 0, 0, 64, 17, 0x6D, 0xE0, 10, 0, 2, 2, 255, 255, 255, 255,
    0, 67, 0, 68, 0, 248, 0, 0].getD k 0
  else if k = 28 + 7 then 1
  else if 28 + 236 ≤ k then [0x63, 0x82, 0x53, 0x63].getD (k - 264) 0
  else 0

def trialClient : Client :=
  { pending := false
    xid := 1
    reply := fun _ => 0
    replyLen := 0
    taken := [] }

theorem trialReply_broadcast : BroadcastReply trialClient.xid trialReply 268 := by
  refine
    { bounds := ⟨by decide, by decide, by decide, by decide⟩
      header := ⟨by decide, by decide⟩
      dest := by decide
      protocol := by decide
      port := by decide
      least := by decide
      most := by decide
      sum := .inl (by decide)
      xid := by decide
      cookie := by decide }

/-- A host that has the broadcast address takes the reply. -/
theorem broadcastReply_stored_trial : Stored (handled 0x1000 trialClient (handleIp (listening 0x1000
      { trialHost with ourIp := broadcastIp }) trialReply 268 (fun _ => 2) 0).2) trialReply := by
  have hroom : HasRoom { trialHost with ourIp := broadcastIp } :=
    ⟨{ port := 0, handler := 0, userdata := 0, active := false }, by decide, .inr rfl⟩
  exact (broadcastReply_stored_iff 0x1000 { trialHost with ourIp := broadcastIp } trialClient trialReply 268
    (fun _ => 2) 0 rfl trialReply_broadcast).mpr ⟨rfl, hroom, by decide⟩

/-- The host of the trials does not, with its own address. -/
theorem broadcastReply_lost :
    ∃ host : Host, host.ourIp = 0x0F02000A ∧ BroadcastReply trialClient.xid trialReply 268 ∧
    ¬ Stored (handled 0x1000 trialClient
      (handleIp (listening 0x1000 host) trialReply 268 (fun _ => 2) 0).2) trialReply := by
  refine ⟨trialHost, rfl, trialReply_broadcast, fun h => ?_⟩
  have hout : (handleIp (listening 0x1000 trialHost) trialReply 268 (fun _ => 2) 0).2 = [] := by
    rw [handleIp_of_not_accepted fun haccepted => ?_]
    exact absurd haccepted.dest (by rw [listening_ourIp]; decide)
  have hpending := h.pending
  rw [hout] at hpending
  cases hpending

end Trial

end JexOs.Dhcp
