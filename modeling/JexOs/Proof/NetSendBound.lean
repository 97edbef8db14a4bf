import JexOs.Proof.NetVerify

/-!
# How much `net_send_udp` sends

The length fields of the headers have 16 bits, the send buffer has 2048 bytes, and the checksum is
only computed for datagrams of 1500 bytes.
-/

namespace JexOs.Net

open ByteMem Tcp Option

theorem blit_of_not_mem {m src : Mem} {a n k : Nat} (h : ¬ (a ≤ k ∧ k < a + n)) :
    blit m a n src k = m k := if_neg h

section Frames

variable {host host' : Host} {destMac : Mac} {destIp : UInt32} {destPort srcPort : UInt16}
  {data : Mem} {len : Nat} {frame : List UInt8}

def udpField (host : Host) (destMac : Mac) (destIp : UInt32)
    (destPort srcPort : UInt16) (data : Mem) (len : Nat) : Nat :=
  let csum := (udpChecksum host.checksumBuf host.ourIp destIp
    (behind (udpFrame host destMac destIp destPort srcPort data len) 34) (udpHeaderLen + len)).1
  if csum = 0 then 0xFFFF else csum

theorem udpField_long (hlen : 1492 < len) :
    udpField host destMac destIp destPort srcPort data len = 0xFFFF := by
  have hnone : (udpChecksum host.checksumBuf host.ourIp destIp (behind
      (udpFrame host destMac destIp destPort srcPort data len) 34) (udpHeaderLen + len)).1 = 0 := by
    unfold udpChecksum
    rw [if_pos (by unfold udpHeaderLen; omega)]
  unfold udpField
  rw [hnone]
  rfl

theorem netSendUdp_frame
    (h : netSendUdp destIp destPort srcPort data len host = some (frame, host')) :
    ∃ destMac, resolveMac host destIp = some destMac ∧
      host'.sendBuf = store16 (udpFrame host destMac destIp destPort srcPort data len) 40
        (udpField host destMac destIp destPort srcPort data len) ∧
        frame = bytesOf host'.sendBuf (42 + len) := by
  obtain ⟨destMac, hmac, hrest⟩ := bind_eq_some_iff.mp h
  have hsend : netSendUdp destIp destPort srcPort data len host =
      some (bytesOf (store16 (udpFrame host destMac destIp destPort srcPort data len) 40
          (udpField host destMac destIp destPort srcPort data len)) (34 + (8 + len)),
        { host with
          ipId := host.ipId + 1
          sendBuf := store16 (udpFrame host destMac destIp destPort srcPort data len) 40
            (udpField host destMac destIp destPort srcPort data len)
          checksumBuf := (udpChecksum host.checksumBuf host.ourIp destIp
            (behind (udpFrame host destMac destIp destPort srcPort data len) 34)
            (udpHeaderLen + len)).2 }) := by
    unfold netSendUdp
    rw [hmac]
    rfl
  rw [hsend] at h
  cases h
  refine ⟨destMac, hmac, rfl, ?_⟩
  rw [← Nat.add_assoc]

theorem udpFrame_of_ge {k : Nat} (hk : 42 + len ≤ k) :
    udpFrame host destMac destIp destPort srcPort data len k = host.sendBuf k := by
  show blit (store16 (storeBe16 (storeBe16 (storeBe16 (store16 (store32 (store32 (store16 (store8
    (store8 (storeBe16 (storeBe16 (storeBe16 (store8 (store8 (storeBe16 (blit
    (blit host.sendBuf 0 6 _) 6 6 _) 12 _) 14 _) 15 _) 16 _) 18 _) 20 _) 22 _) 23 _) 24 _) 26 _)
    30 _) 24 _) 34 _) 36 _) 38 _) 40 0) 42 len data k = _
  unfold store8 store16 storeBe16 store32
  repeat rw [blit_of_ge (by omega)]

end Frames

/-- All writes stay inside the send buffer, the length fields are true, and the checksum that is there
verifies. -/
structure SentRight (host host' : Host) (len : Nat) (d : Mem) : Prop where
  inside : ∀ k, packetBufSize ≤ k → host'.sendBuf k = host.sendBuf k
  total : ipTotalLen d = ipHeaderLen + udpHeaderLen + len
  length : be16 d (ipHeaderLen + 4) = udpHeaderLen + len
  present : load16 d (ipHeaderLen + 6) ≠ 0
  verifies : transportSum d (udpHeaderLen + len) = 0

def SendsRight (len : Nat) : Prop :=
  ∀ destIp destPort srcPort data host frame host',
    netSendUdp destIp destPort srcPort data len host = some (frame, host') →
    ∀ d, Carries frame d → SentRight host host' len d

theorem sendsRight_of_le {len : Nat} (hlen : len ≤ 1492) : SendsRight len := by
  intro destIp destPort srcPort data host frame host' hsend d hd
  obtain ⟨destMac, -, hbuf, -⟩ := netSendUdp_frame hsend
  obtain ⟨-, destMac', csum', -, -, hlt, hcarried⟩ := netSendUdp_carried hlen hsend hd
  obtain ⟨hheader, htotal, -⟩ := hcarried.reads hlen
  obtain ⟨-, hlength, -⟩ := hcarried.readsUdp hlen hlt
  obtain ⟨hsum, hpresent, -⟩ := (netSendUdp_verifies hlen hsend hd).udp rfl
  rw [hheader] at hsum hpresent
  have hudpLen : be16 (behind d 20) 4 = 8 + len := hlength
  rw [hudpLen] at hsum
  refine
    { inside := fun k hk => ?_
      total := htotal
      length := hlength
      present := hpresent
      verifies := hsum }
  unfold packetBufSize at hk
  rw [hbuf, store16, blit_of_ge (by omega), udpFrame_of_ge (by omega)]

section Unsummed

variable {len n : Nat} {d : Mem}

/-- A host of any address whose gateway is known. -/
def loopHost (ip : UInt32) : Host := { trialHost with ourIp := ip, gatewayIp := 0x0F02000A }

theorem resolveMac_loopHost (ip : UInt32) :
    resolveMac (loopHost ip) 0x0F02000A = some fun _ => 1 := by
  unfold resolveMac
  rw [show (loopHost ip).gatewayIp = 0x0F02000A from rfl, ite_self]
  rfl

/-- The checksum of a payload that is too long goes out as `0xFFFF`. -/
theorem netSendUdp_unsummed (ip : UInt32) (data : Mem) (hlen : 1492 < len) : ∃ frame host' d,
    netSendUdp 0x0F02000A 7 9 data len (loopHost ip) = some (frame, host') ∧
      host'.sendBuf =
        store16 (udpFrame (loopHost ip) (fun _ => 1) 0x0F02000A 7 9 data len) 40 0xFFFF ∧
      Carries frame d ∧ Carried (loopHost ip) (fun _ => 1) 0x0F02000A 7 9 data len 0xFFFF d := by
  obtain ⟨frame, host', hsend⟩ : ∃ frame host',
      netSendUdp 0x0F02000A 7 9 data len (loopHost ip) = some (frame, host') := by
    unfold netSendUdp
    rw [resolveMac_loopHost]
    exact ⟨_, _, rfl⟩
  have hd : Carries frame fun k => frame.getD (ethHeaderLen + k) 0 := fun _ _ => rfl
  obtain ⟨destMac, hmac, hbuf, rfl⟩ := netSendUdp_frame hsend
  obtain rfl : (fun _ => 1) = destMac := some.inj ((resolveMac_loopHost ip).symm.trans hmac)
  rw [udpField_long hlen] at hbuf
  refine ⟨_, host', _, hsend, hbuf, hd, ⟨?_⟩⟩
  rw [← hbuf]
  rw [show 42 + len = 14 + (28 + len) by omega] at hd ⊢
  exact carries_bytesOf hd

/-- A payload of zeros as it goes out, without the header that knows the address of the host. -/
def longUdp (len : Nat) : Mem :=
  behind (store16 (udpFrame (loopHost 0) (fun _ => 1) 0x0F02000A 7 9 (fun _ => 0) len) 40 0xFFFF) 34

theorem udpFrame_of_ip (ip : UInt32) {k : Nat} (hk : k < 8 + len) :
    udpFrame (loopHost ip) (fun _ => 1) 0x0F02000A 7 9 (fun _ => 0) len (34 + k) =
      udpFrame (loopHost 0) (fun _ => 1) 0x0F02000A 7 9 (fun _ => 0) len (34 + k) := by
  obtain ⟨hsrc, hdest, hlength, hzero, hdata⟩ :=
    udpFrame_udp (loopHost ip) (fun _ => 1) 0x0F02000A 7 9 (fun _ => 0) len
  obtain ⟨hsrc', hdest', hlength', hzero', hdata'⟩ :=
    udpFrame_udp (loopHost 0) (fun _ => 1) 0x0F02000A 7 9 (fun _ => 0) len
  rcases (by omega : k < 2 ∨ 2 ≤ k ∧ k < 4 ∨ 4 ≤ k ∧ k < 6 ∨ 6 ≤ k ∧ k < 8 ∨ 8 ≤ k)
    with h | ⟨h, h'⟩ | ⟨h, h'⟩ | ⟨h, h'⟩ | h
  · exact (hsrc k h).trans (hsrc' k h).symm
  all_goals
    obtain ⟨j, rfl⟩ := Nat.exists_eq_add_of_le h
    rw [← Nat.add_assoc]
  · exact (hdest j (by omega)).trans (hdest' j (by omega)).symm
  · exact (hlength j (by omega)).trans (hlength' j (by omega)).symm
  · exact (hzero j (by omega)).trans (hzero' j (by omega)).symm
  · exact (hdata j (by omega)).trans (hdata' j (by omega)).symm

theorem Carried.longUdp {ip : UInt32}
    (h : Carried (loopHost ip) (fun _ => 1) 0x0F02000A 7 9 (fun _ => 0) len 0xFFFF d)
    {k : Nat} (hk : k < 8 + len) : behind d 20 k = Net.longUdp len k := by
  have hbyte := h.bytes (20 + k) (by omega)
  rw [← Nat.add_assoc] at hbyte
  exact hbyte.trans (if_congr Iff.rfl rfl (udpFrame_of_ip ip hk))

def summed (ip dest : UInt32) (n : Nat) (udp : Mem) : Mem :=
  blit (udpPseudo (fun _ => 0) ip dest n) 12 n udp

theorem summed_one (dest : UInt32) (n : Nat) (udp : Mem) :
    summed 1 dest n udp = store16 (summed 0 dest n udp) 0 1 := by
  funext k
  unfold summed udpPseudo store8 store16 storeBe16 store32
  by_cases hk : k < 2
  · rw [blit_of_mem (Nat.zero_le _) hk]
    simp (disch := omega) only [blit_of_lt]
    exact blit_of_mem (Nat.zero_le _) (by omega)
  · rw [blit_of_ge (by omega : 0 + 2 ≤ k)]
    refine if_congr Iff.rfl rfl (if_congr Iff.rfl rfl (if_congr Iff.rfl rfl (if_congr Iff.rfl rfl
      (if_congr Iff.rfl rfl (if_ctx_congr Iff.rfl (fun h => ?_) fun _ => rfl)))))
    rcases (by omega : k = 2 ∨ k = 3) with rfl | rfl <;> rfl

/-- Of two addresses, the sum of one is not 0. -/
theorem checksum_summed (hn : n ≤ 65523) (dest : UInt32) (udp : Mem)
    (hzero : checksum (summed 0 dest n udp) (12 + n) % 0xFFFF = 0) :
    checksum (summed 1 dest n udp) (12 + n) % 0xFFFF ≠ 0 := by
  have hsum : sumBytes (store16 (summed 0 dest n udp) 0 1) (12 + n) =
      sumBytes (summed 0 dest n udp) (12 + n) + 1 := by
    refine sumBytes_store16 (by omega) (by decide) (by omega) (by decide)
      (load16_eq_zero fun k hk => ?_)
    unfold summed udpPseudo store8 storeBe16 store32
    simp (disch := omega) only [blit_of_lt]
    exact (blit_of_mem (Nat.zero_le _) (by omega)).trans (byteOf_zero _)
  rw [summed_one]
  unfold checksum at *
  rw [hsum, fold_of_pos (Nat.succ_pos _)]
  rcases Nat.eq_zero_or_pos (sumBytes (summed 0 dest n udp) (12 + n)) with hnone | hpos
  · rw [hnone]
    decide
  · rw [fold_of_pos hpos] at hzero
    omega

theorem not_sendsRight_of_lt (hlen : 1492 < len) : ¬ SendsRight len := by
  intro hright
  by_cases hover : 2006 < len
  -- a payload of ones reaches the byte behind the buffer
  · obtain ⟨frame, host', d, hsend, hbuf, hd, -⟩ := netSendUdp_unsummed 0 (fun _ => 1) hlen
    have hinside := (hright _ _ _ _ _ _ _ hsend d hd).inside 2048 le_rfl
    have hwritten : host'.sendBuf 2048 = 1 := by
      rw [hbuf, store16, blit_of_ge (by decide)]
      have hpayload : udpFrame (loopHost 0) (fun _ => 1) 0x0F02000A 7 9 (fun _ => 1) len 2048 = 1 :=
        @blit_of_mem len 42 2048 _ (fun _ => 1) (by decide) (by omega)
      exact hpayload
    rw [hwritten] at hinside
    exact absurd hinside (by decide)
  -- of two hosts that send the same, one does not send what verifies
  · have hsum : ∀ ip, checksum (summed ip 0x0F02000A (8 + len) (longUdp len))
      (12 + (8 + len)) = 0 := by
      intro ip
      obtain ⟨frame, host', d, hsend, -, hd, h⟩ := netSendUdp_unsummed ip (fun _ => 0) hlen
      obtain ⟨hheader, hproto, hsrc, hdest⟩ := h.addresses
      rw [← (hright _ _ _ _ _ _ _ hsend d hd).verifies, transportSum, hheader, hproto, hsrc, hdest]
      refine checksum_congr fun k hk =>
        if_ctx_congr Iff.rfl (fun hin => (h.longUdp ?_).symm) fun _ => rfl
      omega
    have hzero := hsum 0
    have hone := hsum 1
    exact checksum_summed (n := 8 + len) (by omega) _ _ (by rw [hzero]) (by rw [hone])

theorem udpChecksum_of_verifies (hlen : 1492 < len)
    (hall : ∀ frame d, Built len ipProtoUdp frame → Carries frame d → Verifies ipProtoUdp d)
    (ip : UInt32) : (udpChecksum (fun _ => 0) ip 0x0F02000A (withoutChecksum (longUdp len))
      ((8 + len) % 2 ^ 16)).1 = 0xFFFF := by
  obtain ⟨frame, host', d, hsend, -, hd, h⟩ := netSendUdp_unsummed ip (fun _ => 0) hlen
  obtain ⟨hheader, -, hsrc, hdest⟩ := h.addresses
  obtain ⟨-, -, hsum⟩ := (hall frame d (.udp hsend) hd).udp rfl
  have hsum := hsum fun _ => 0
  have hudpLen : be16 (behind d 20) 4 = (8 + len) % 2 ^ 16 := h.length
  have hfield : load16 (behind d 20) 6 = 0xFFFF := h.sum (by decide)
  rw [hheader, hsrc, hdest, hudpLen, hfield] at hsum
  rw [← hsum]
  have hle := Nat.mod_le (8 + len) (2 ^ 16)
  exact udpChecksum_congr fun k hk => if_congr Iff.rfl rfl (h.longUdp (by omega)).symm

theorem exists_unverified (hlen : 1492 < len) :
    ∃ frame d, Built len ipProtoUdp frame ∧ Carries frame d ∧ ¬ Verifies ipProtoUdp d := by
  by_contra hnone
  have hsum := udpChecksum_of_verifies hlen fun frame d hbuilt hd => by
    by_contra hfails
    exact hnone ⟨frame, d, hbuilt, hd, hfails⟩
  unfold udpChecksum udpPseudoLen at hsum
  by_cases hshort : (8 + len) % 2 ^ 16 ≤ 1500
  · have hzero : ∀ ip, checksum (summed ip 0x0F02000A ((8 + len) % 2 ^ 16)
        (withoutChecksum (longUdp len))) (12 + (8 + len) % 2 ^ 16) % 0xFFFF = 0 := by
      intro ip
      have hsum := hsum ip
      rw [if_neg (by omega)] at hsum
      dsimp only at hsum
      unfold summed
      split at hsum
      · rename_i hzero
        rw [hzero]
      · rw [hsum]
    exact checksum_summed (by omega) _ _ (hzero 0) (hzero 1)
  · have hsum := hsum 0
    rw [if_pos (by omega)] at hsum
    cases hsum

end Unsummed

/-- A payload length is always sent right, exactly up to what the checksum is computed for. -/
theorem sendsRight_iff (len : Nat) : SendsRight len ↔ len ≤ 1492 := by
  constructor
  · intro hright
    by_contra hlen
    exact not_sendsRight_of_lt (Nat.lt_of_not_le hlen) hright
  · exact sendsRight_of_le

/-- A payload of 1493 bytes goes out with the checksum `0xFFFF`, and of one of 2007 bytes the last is
written behind the buffer. -/
theorem not_sendsRight_long : ¬ SendsRight 1493 ∧ ¬ SendsRight 2007 :=
  ⟨not_sendsRight_of_lt (by decide), not_sendsRight_of_lt (by decide)⟩

/-- The law holds exactly for the payloads whose checksum is computed. -/
theorem checksumLaw_iff (len : Nat) : ChecksumLaw len ↔ len ≤ 1492 := by
  constructor
  · intro hlaw
    by_contra hlen
    obtain ⟨frame, d, hbuilt, hcarries, hfails⟩ := exists_unverified (Nat.lt_of_not_le hlen)
    exact hfails (hlaw.verifies _ frame d hbuilt hcarries)
  · exact checksumLaw_of_le

/-- A payload of 1493 bytes goes out with a checksum that does not verify. -/
theorem not_verifies_long :
    ∃ frame d, Built 1493 ipProtoUdp frame ∧ Carries frame d ∧ ¬ Verifies ipProtoUdp d :=
  exists_unverified (by decide)

end JexOs.Net
