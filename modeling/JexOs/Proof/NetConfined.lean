import JexOs.Proof.NetUdp
import JexOs.Proof.TcpReceive

/-!
# What a received datagram can show of the memory behind it

Two runs of `handle_ip` on memories that agree on the bytes received. What they do is the same if the lengths in
the headers are within these bytes.
-/

namespace JexOs.Net

open ByteMem Tcp List Function Option

def AgreeBelow (n : Nat) (m' m : Mem) : Prop := ∀ k < n, m' k = m k

section Agreement

variable {m m' : Mem} {n a : Nat}

section

variable (h : AgreeBelow n m' m)

include h

theorem AgreeBelow.mono {n' : Nat} (hle : n' ≤ n) : AgreeBelow n' m' m :=
  fun k hk => h k (hk.trans_le hle)

theorem AgreeBelow.blit (a c : Nat) (src : Mem) : AgreeBelow n (blit m' a c src) (blit m a c src) := by
  intro k hk
  unfold ByteMem.blit
  split
  · rfl
  · exact h k hk

theorem AgreeBelow.checksum {len : Nat} (hle : a + len ≤ n) :
    Net.checksum (Net.behind m' a) len = Net.checksum (Net.behind m a) len :=
  checksum_congr fun k hk => h (a + k) (by omega)

theorem AgreeBelow.fill (b : Nat) {len : Nat} (hle : a + len ≤ n) :
    AgreeBelow n (store16 m' b (Net.checksum (Net.behind m' a) len))
      (store16 m b (Net.checksum (Net.behind m a) len)) := by
  rw [h.checksum hle]
  exact h.blit _ _ _

theorem AgreeBelow.load16 (ha : a + 2 ≤ n) :
    ByteMem.load16 m' a = ByteMem.load16 m a := load16_congr fun k _ hk => h k (by omega)

theorem AgreeBelow.load32 (ha : a + 4 ≤ n) :
    ByteMem.load32 m' a = ByteMem.load32 m a := load32_congr fun k _ hk => h k (by omega)

theorem AgreeBelow.be16 (ha : a + 2 ≤ n) : Tcp.be16 m' a = Tcp.be16 m a :=
      be16_congr fun k _ hk => h k (by omega)

theorem AgreeBelow.be32 (ha : a + 4 ≤ n) : Tcp.be32 m' a = Tcp.be32 m a := by
  unfold Tcp.be32
  rw [h.be16 (by omega), h.be16 (by omega)]

theorem AgreeBelow.bytesOf : bytesOf m' n = bytesOf m n :=
  map_congr_left fun k hk => h k (mem_range.mp hk)

end

theorem agreeBelow_update {v : UInt8} (ha : n ≤ a) : AgreeBelow n (Function.update m a v) m :=
  fun k hk => update_of_ne (by omega) v m

theorem bytesOf_ne {k : Nat} (hk : k < n) (hne : m' k ≠ m k) : bytesOf m' n ≠ bytesOf m n := by
  intro h
  have hget := congrArg (fun l => l[k]?) h
  simp only [Tcp.bytesOf, getElem?_map, getElem?_range hk, map_some, some.injEq] at hget
  exact hne hget

end Agreement

theorem succ_ne_self (v : UInt8) : v + 1 ≠ v := by
  intro h
  have hnat := congrArg UInt8.toNat h
  simp at hnat
  omega

def Host.withBuffers (host : Host) (sendBuf replyBuf checksumBuf : Mem) : Host :=
  { host with
    sendBuf := sendBuf
    replyBuf := replyBuf
    checksumBuf := checksumBuf }

section Buffers

variable (host : Host) (b₁ b₂ b₃ : Mem)

@[simp]
theorem Host.withBuffers_ourIp : (host.withBuffers b₁ b₂ b₃).ourIp = host.ourIp := rfl

@[simp]
theorem Host.withBuffers_handlers : (host.withBuffers b₁ b₂ b₃).handlers = host.handlers := rfl

@[simp]
theorem Host.withBuffers_conn : (host.withBuffers b₁ b₂ b₃).conn = host.conn := rfl

@[simp]
theorem Host.withBuffers_arpCache : (host.withBuffers b₁ b₂ b₃).arpCache = host.arpCache := rfl

end Buffers

def Host.shown (host : Host) : Host :=
  host.withBuffers (fun _ => 0) (fun _ => 0) fun _ => 0

/-- Every run on memory that agrees with this one on the bytes received shows the same. -/
def Confined (host : Host) (data : Mem) (len : Nat) (srcMac : Mac) (ticks : UInt32) : Prop :=
  ∀ data' sendBuf replyBuf checksumBuf, AgreeBelow len data' data →
    let before := handleIp host data len srcMac ticks
    let after := handleIp (host.withBuffers sendBuf replyBuf checksumBuf) data' len srcMac ticks
    after.2 = before.2 ∧ after.1.shown = before.1.shown

section Leaks

variable (host : Host) (data : Mem) (len : Nat)

structure Accepted : Prop where
  header : ipHeaderLen ≤ len
  options : ipHdrLen data ≤ len
  checksum : checksum data (ipHdrLen data) = 0
  dest : ipDest data = host.ourIp

structure LongEcho : Prop where
  protocol : ipProtocol data = ipProtoIcmp
  header : ipHdrLen data + icmpHeaderLen ≤ len
  total : ipHdrLen data + icmpHeaderLen ≤ ipTotalLen data
  request : data (ipHdrLen data) = icmpEchoRequest
  fits : ethHeaderLen + ipTotalLen data ≤ packetBufSize
  long : len < ipTotalLen data

def UdpPasses : Prop :=
  load16 data (ipHdrLen data + 6) = 0 ∨ load16 data (ipHdrLen data + 6) =
    (udpChecksum host.checksumBuf (ipSrc data) (ipDest data)
      (withoutChecksum (behind data (ipHdrLen data))) (be16 data (ipHdrLen data + 4))).1

instance : Decidable (UdpPasses host data) := inferInstanceAs (Decidable (_ ∨ _))

structure UdpLengths : Prop where
  header : ipHdrLen data + udpHeaderLen ≤ len
  total : ipHdrLen data + udpHeaderLen ≤ ipTotalLen data
  least : udpHeaderLen ≤ be16 data (ipHdrLen data + 4)
  most : be16 data (ipHdrLen data + 4) ≤ ipTotalLen data - ipHdrLen data

/-- A UDP datagram for a handler that claims to be longer than it is, and passes the checksum test for
some bytes behind the ones received. -/
structure LongUdp : Prop where
  protocol : ipProtocol data = ipProtoUdp
  lengths : UdpLengths data len
  handler : ∃ entry ∈ host.handlers.entries,
    entry.serves (UInt16.ofNat (be16 data (ipHdrLen data + 2))) = true
  long : len < ipHdrLen data + be16 data (ipHdrLen data + 4)
  passes : ∃ data', AgreeBelow len data' data ∧ UdpPasses host data'

def takes (c : Conn) (seg : Segment) : Nat :=
  (copyLen (UInt32.ofNat (c.rxBuf.take tcpRxBufSize).length) seg.payloadLen).toNat

structure LongTcp : Prop where
  protocol : ipProtocol data = ipProtoTcp
  segment : ∃ seg, readSegment data len (ipHdrLen data) = some seg ∧ Handled host.conn seg ∧
    InOrder host.conn seg ∧ 0 < takes host.conn seg ∧
    len < ipHdrLen data + (data (ipHdrLen data + 12)).toNat / 16 * 4 + takes host.conn seg

end Leaks

section Headers

variable {data data' : Mem} {len : Nat}

structure SameHeader (data' data : Mem) : Prop where
  hdrLen : ipHdrLen data' = ipHdrLen data
  totalLen : ipTotalLen data' = ipTotalLen data
  protocol : ipProtocol data' = ipProtocol data
  src : ipSrc data' = ipSrc data
  dest : ipDest data' = ipDest data

theorem AgreeBelow.sameHeader (h : AgreeBelow len data' data) (hlen : ipHeaderLen ≤ len) :
    SameHeader data' data := by
  unfold ipHeaderLen at hlen
  exact
    { hdrLen := by
        unfold ipHdrLen
        rw [h 0 (by omega)]
      totalLen := h.be16 (by omega)
      protocol := h 9 (by omega)
      src := congrArg UInt32.ofNat (h.load32 (by omega))
      dest := congrArg UInt32.ofNat (h.load32 (by omega)) }

end Headers

section Echo

variable {host : Host} {data data' : Mem} {len : Nat} {srcMac : Mac} {b₁ b₂ b₃ : Mem}

theorem buildEtherHeader_congr {buf buf' : Mem} {dest src : Mac} {type : Nat} :
    AgreeBelow ethHeaderLen (buildEtherHeader buf' dest src type) (buildEtherHeader buf dest src type) := by
  intro k hk
  unfold ethHeaderLen at hk
  unfold buildEtherHeader storeBe16 blit
  split
  · rfl
  · split
    · rfl
    · rw [if_pos (by omega), if_pos (by omega)]

theorem echoReply_congr (hdata : AgreeBelow len data' data) (hheader : SameHeader data' data)
    {ipHdr : Nat} (hhdr : ipHdr ≤ ipTotalLen data) (htotal : ipTotalLen data ≤ len) :
    AgreeBelow (ethHeaderLen + ipTotalLen data)
      (echoReply (host.withBuffers b₁ b₂ b₃) data' srcMac ipHdr) (echoReply host data srcMac ipHdr) := by
  have hcopied : AgreeBelow (ethHeaderLen + ipTotalLen data)
      (blit (buildEtherHeader b₂ srcMac host.ourMac ethertypeIp) ethHeaderLen (ipTotalLen data) data')
      (blit (buildEtherHeader host.replyBuf srcMac host.ourMac ethertypeIp) ethHeaderLen
        (ipTotalLen data) data) := by
    intro k hk
    by_cases hlow : k < ethHeaderLen
    · rw [blit_of_lt hlow, blit_of_lt hlow]
      exact buildEtherHeader_congr k hlow
    · rw [blit_of_mem (by omega) hk, blit_of_mem (by omega) hk]
      exact hdata _ (by omega)
  unfold echoReply
  rw [hheader.totalLen, hheader.src]
  refine AgreeBelow.fill ?_ _ (by omega)
  refine AgreeBelow.blit (AgreeBelow.blit (AgreeBelow.blit ?_ _ _ _) _ _ _) _ _ _
  refine AgreeBelow.fill ?_ _ (by omega)
  exact ((hcopied.blit _ _ _).blit _ _ _).blit _ _ _

theorem handleIcmp_congr (hdata : AgreeBelow len data' data) (hheader : SameHeader data' data)
    (hprotocol : ipProtocol data = ipProtoIcmp) (hnot : ¬ LongEcho data len) :
    (handleIcmp (host.withBuffers b₁ b₂ b₃) data' len srcMac).2 = (handleIcmp host data len srcMac).2 ∧
      (handleIcmp (host.withBuffers b₁ b₂ b₃) data' len srcMac).1.shown =
        (handleIcmp host data len srcMac).1.shown := by
  unfold handleIcmp
  dsimp only
  rw [hheader.hdrLen, hheader.totalLen, hheader.dest, Host.withBuffers_ourIp]
  by_cases hshort : len < ipHdrLen data + icmpHeaderLen ∨ ipTotalLen data < ipHdrLen data + icmpHeaderLen
  · rw [if_pos hshort, if_pos hshort]
    exact ⟨rfl, rfl⟩
  · have hfirst : data' (ipHdrLen data) = data (ipHdrLen data) :=
      hdata _ (by unfold icmpHeaderLen at hshort; omega)
    rw [if_neg hshort, if_neg hshort, hfirst]
    by_cases hrequest : data (ipHdrLen data) = icmpEchoRequest ∧ ipDest data = host.ourIp
    · rw [if_pos hrequest, if_pos hrequest]
      by_cases hfits : ethHeaderLen + ipTotalLen data > packetBufSize
      · rw [if_pos hfits, if_pos hfits]
        exact ⟨rfl, rfl⟩
      · have htotal : ipTotalLen data ≤ len := by
          by_contra hlong
          exact hnot ⟨hprotocol, by omega, by omega, hrequest.1, by omega, by omega⟩
        have hreply : bytesOf (echoReply (host.withBuffers b₁ b₂ b₃) data' srcMac (ipHdrLen data))
            (ethHeaderLen + ipTotalLen data) =
            bytesOf (echoReply host data srcMac (ipHdrLen data)) (ethHeaderLen + ipTotalLen data) :=
          (echoReply_congr hdata hheader (by unfold icmpHeaderLen at hshort; omega) htotal).bytesOf
        rw [if_neg hfits, if_neg hfits, hreply]
        exact ⟨rfl, rfl⟩
    · rw [if_neg hrequest, if_neg hrequest]
      by_cases hanswer : data (ipHdrLen data) = icmpEchoReply ∧ ipDest data = host.ourIp
      · rw [if_pos hanswer, if_pos hanswer]
        exact ⟨rfl, rfl⟩
      · rw [if_neg hanswer, if_neg hanswer]
        exact ⟨rfl, rfl⟩

theorem echoReply_byte {ipHdr k : Nat} (hk : k < ipTotalLen data) (hheader : 20 ≤ k)
    (hicmp : ipHdr + icmpHeaderLen ≤ k) : echoReply host data srcMac ipHdr (ethHeaderLen + k) = data k := by
  unfold icmpHeaderLen at hicmp
  unfold echoReply store16 store8 store32
  rw [blit_of_ge (by omega), blit_of_ge (by omega), blit_of_ge (by omega), blit_of_ge (by omega),
    blit_of_ge (by omega), blit_of_ge (by omega), blit_of_ge (by omega), blit_of_ge (by omega),
    blit_add hk]

theorem LongEcho.answered (h : LongEcho data len) (hdest : ipDest data = host.ourIp) :
    (handleIcmp host data len srcMac).2 = [.frame (bytesOf
      (echoReply host data srcMac (ipHdrLen data)) (ethHeaderLen + ipTotalLen data))] := by
  have hheader := h.header
  have htotal := h.total
  have hfits := h.fits
  unfold handleIcmp
  rw [if_neg (by omega), if_pos ⟨h.request, hdest⟩, if_neg (by omega)]

theorem LongEcho.congr (h : LongEcho data len) (hdata : AgreeBelow len data' data)
    (hheader : SameHeader data' data) : LongEcho data' len := by
  have hfirst : data' (ipHdrLen data) = data (ipHdrLen data) := by
    have := h.header
    unfold icmpHeaderLen at this
    exact hdata _ (by omega)
  exact
    { protocol := hheader.protocol.trans h.protocol
      header := hheader.hdrLen ▸ h.header
      total := hheader.hdrLen ▸ hheader.totalLen ▸ h.total
      request := by
        rw [hheader.hdrLen, hfirst]
        exact h.request
      fits := hheader.totalLen ▸ h.fits
      long := hheader.totalLen ▸ h.long }

theorem LongEcho.shows (h : LongEcho data len) (hlen : ipHeaderLen ≤ len) (hdest : ipDest data = host.ourIp) :
    (handleIcmp host (Function.update data len (data len + 1)) len srcMac).2 ≠
      (handleIcmp host data len srcMac).2 := by
  have hagree : AgreeBelow len (Function.update data len (data len + 1)) data := agreeBelow_update le_rfl
  have hheader := hagree.sameHeader hlen
  have hlong := h.long
  rw [h.answered hdest, (h.congr hagree hheader).answered (hheader.dest.trans hdest),
    hheader.hdrLen, hheader.totalLen]
  intro heq
  have hframes := Output.frame.inj (cons.inj heq).1
  refine bytesOf_ne (k := ethHeaderLen + len) (by omega) ?_ hframes
  rw [echoReply_byte hlong hlen h.header, echoReply_byte (by rw [hheader.totalLen]; exact hlong) hlen
    h.header, update_self]
  exact succ_ne_self _

end Echo

section Udp

variable {host : Host} {data data' : Mem} {len : Nat} {b₁ b₂ b₃ : Mem}

theorem handleUdp_shown (host : Host) (data : Mem) (len ipHdr : Nat) :
    (handleUdp host data len ipHdr).1.shown = host.shown := by
  unfold handleUdp
  dsimp only
  split
  · rfl
  · split
    · rfl
    · split
      · rfl
      · split <;> rfl

theorem handleUdp_of_lengths (host : Host) (h : UdpLengths data len) :
    (handleUdp host data len (ipHdrLen data)).2 =
      if UdpPasses host data then
        dispatch host data (ipHdrLen data) (be16 data (ipHdrLen data + 4))
      else [] := by
  have hheader := h.header
  have htotal := h.total
  have hleast := h.least
  have hmost := h.most
  unfold handleUdp
  dsimp only
  rw [if_neg (by omega), if_neg (by omega), load16_behind]
  by_cases hzero : load16 data (ipHdrLen data + 6) = 0
  · have hpasses : UdpPasses host data := .inl hzero
    rw [if_pos hzero, if_pos hpasses]
  · rw [if_neg hzero]
    by_cases hsum : load16 data (ipHdrLen data + 6) =
        (udpChecksum host.checksumBuf (ipSrc data) (ipDest data)
          (withoutChecksum (behind data (ipHdrLen data))) (be16 data (ipHdrLen data + 4))).1
    · have hpasses : UdpPasses host data := .inr hsum
      rw [if_neg (not_not.mpr hsum), if_pos hpasses]
      rfl
    · have hpasses : ¬ UdpPasses host data := not_or.mpr ⟨hzero, hsum⟩
      rw [if_pos hsum, if_neg hpasses]

theorem handleUdp_of_not_lengths (host : Host) (h : ¬ UdpLengths data len) :
    (handleUdp host data len (ipHdrLen data)).2 = [] := by
  unfold handleUdp
  dsimp only
  split
  · rfl
  · split
    · rfl
    · exact absurd ⟨by omega, by omega, by omega, by omega⟩ h

structure SameUdp (data' data : Mem) : Prop where
  srcPort : load16 data' (ipHdrLen data) = load16 data (ipHdrLen data)
  destPort : be16 data' (ipHdrLen data + 2) = be16 data (ipHdrLen data + 2)
  udpLen : be16 data' (ipHdrLen data + 4) = be16 data (ipHdrLen data + 4)
  saved : load16 data' (ipHdrLen data + 6) = load16 data (ipHdrLen data + 6)

theorem AgreeBelow.sameUdp (hdata : AgreeBelow len data' data)
    (hheader : ipHdrLen data + udpHeaderLen ≤ len) : SameUdp data' data := by
  unfold udpHeaderLen at hheader
  exact
    { srcPort := hdata.load16 (by omega)
      destPort := hdata.be16 (by omega)
      udpLen := hdata.be16 (by omega)
      saved := hdata.load16 (by omega) }

theorem UdpLengths.congr (h : UdpLengths data len) (hdata : AgreeBelow len data' data)
    (hheader : SameHeader data' data) : UdpLengths data' len := by
  have hudp := hdata.sameUdp h.header
  exact
    { header := hheader.hdrLen ▸ h.header
      total := hheader.hdrLen ▸ hheader.totalLen ▸ h.total
      least := by
        rw [hheader.hdrLen, hudp.udpLen]
        exact h.least
      most := by
        rw [hheader.hdrLen, hheader.totalLen, hudp.udpLen]
        exact h.most }

theorem udpPasses_congr (hheader : SameHeader data' data)
    (hdata : AgreeBelow (ipHdrLen data + be16 data (ipHdrLen data + 4)) data' data)
    (hudp : SameUdp data' data) :
    UdpPasses (host.withBuffers b₁ b₂ b₃) data' ↔ UdpPasses host data := by
  unfold UdpPasses
  have hsum : (udpChecksum (host.withBuffers b₁ b₂ b₃).checksumBuf (ipSrc data) (ipDest data)
      (withoutChecksum (behind data' (ipHdrLen data))) (be16 data (ipHdrLen data + 4))).1 =
      (udpChecksum host.checksumBuf (ipSrc data) (ipDest data)
        (withoutChecksum (behind data (ipHdrLen data))) (be16 data (ipHdrLen data + 4))).1 := by
    refine udpChecksum_congr ?_
    refine AgreeBelow.blit (n := be16 data (ipHdrLen data + 4)) ?_ 6 2 (byteOf 0)
    exact fun k hk => hdata _ (by omega)
  rw [hheader.hdrLen, hheader.src, hheader.dest, hudp.saved, hudp.udpLen, hsum]

theorem dispatch_congr (hheader : SameHeader data' data) (hudp : SameUdp data' data)
    (hdata : AgreeBelow (ipHdrLen data + be16 data (ipHdrLen data + 4)) data' data)
    (hleast : udpHeaderLen ≤ be16 data (ipHdrLen data + 4)) :
    dispatch (host.withBuffers b₁ b₂ b₃) data' (ipHdrLen data) (be16 data (ipHdrLen data + 4)) =
      dispatch host data (ipHdrLen data) (be16 data (ipHdrLen data + 4)) := by
  have hbytes : bytesOf (behind data' (ipHdrLen data + udpHeaderLen))
      (be16 data (ipHdrLen data + 4) - udpHeaderLen) =
      bytesOf (behind data (ipHdrLen data + udpHeaderLen))
        (be16 data (ipHdrLen data + 4) - udpHeaderLen) :=
    AgreeBelow.bytesOf fun k hk => hdata _ (by omega)
  unfold dispatch
  rw [Host.withBuffers_handlers, hudp.destPort, hudp.srcPort, hheader.src, hbytes]

theorem dispatch_of_unserved (h : ¬ ∃ entry ∈ host.handlers.entries,
      entry.serves (UInt16.ofNat (be16 data (ipHdrLen data + 2))) = true) (udpLen : Nat) :
    dispatch host data (ipHdrLen data) udpLen = [] := by
  unfold dispatch
  rw [find?_eq_none.mpr fun entry hmem hserves => h ⟨entry, hmem, hserves⟩]

theorem handleUdp_congr (hdata : AgreeBelow len data' data) (hheader : SameHeader data' data)
    (hprotocol : ipProtocol data = ipProtoUdp) (hnot : ¬ LongUdp host data len) :
    (handleUdp (host.withBuffers b₁ b₂ b₃) data' len (ipHdrLen data)).2 =
      (handleUdp host data len (ipHdrLen data)).2 := by
  by_cases hlengths : UdpLengths data len
  · have hudp := hdata.sameUdp hlengths.header
    have hafter := handleUdp_of_lengths (host.withBuffers b₁ b₂ b₃) (hlengths.congr hdata hheader)
    rw [hheader.hdrLen, hudp.udpLen] at hafter
    rw [handleUdp_of_lengths host hlengths, hafter]
    by_cases hwithin : ipHdrLen data + be16 data (ipHdrLen data + 4) ≤ len
    · rw [dispatch_congr hheader hudp (hdata.mono hwithin) hlengths.least]
      simp only [udpPasses_congr hheader (hdata.mono hwithin) hudp]
    · by_cases hserved : ∃ entry ∈ host.handlers.entries,
          entry.serves (UInt16.ofNat (be16 data (ipHdrLen data + 2))) = true
      · -- no continuation of the bytes received passes
        have hfails (data' : Mem) (h : AgreeBelow len data' data) : ¬ UdpPasses host data' :=
          fun hpasses => hnot ⟨hprotocol, hlengths, hserved, by omega, data', h, hpasses⟩
        have hother : UdpPasses (host.withBuffers b₁ b₂ b₃) data' ↔ UdpPasses host data' :=
          udpPasses_congr ⟨rfl, rfl, rfl, rfl, rfl⟩ (fun _ _ => rfl) ⟨rfl, rfl, rfl, rfl⟩
        rw [if_neg (hfails data fun _ _ => rfl), if_neg (hother.not.mpr (hfails data' hdata))]
      · have hserved' : ¬ ∃ entry ∈ (host.withBuffers b₁ b₂ b₃).handlers.entries,
            entry.serves (UInt16.ofNat (be16 data' (ipHdrLen data' + 2))) = true := by
          rw [hheader.hdrLen, hudp.destPort]
          exact hserved
        have hnone := dispatch_of_unserved hserved' (be16 data (ipHdrLen data + 4))
        rw [hheader.hdrLen] at hnone
        rw [hnone, dispatch_of_unserved hserved, ite_self, ite_self]
  · have hlengths' : ¬ UdpLengths data' len := fun h =>
      hlengths (h.congr (fun k hk => (hdata k hk).symm)
        ⟨hheader.hdrLen.symm, hheader.totalLen.symm, hheader.protocol.symm, hheader.src.symm,
          hheader.dest.symm⟩)
    have hafter := handleUdp_of_not_lengths (host.withBuffers b₁ b₂ b₃) hlengths'
    rw [hheader.hdrLen] at hafter
    rw [handleUdp_of_not_lengths host hlengths, hafter]

theorem dispatch_of_served (h : ∃ entry ∈ host.handlers.entries,
      entry.serves (UInt16.ofNat (be16 data (ipHdrLen data + 2))) = true) (udpLen : Nat) :
    ∃ handler userdata, dispatch host data (ipHdrLen data) udpLen =
      [.udp handler userdata (ipSrc data) (UInt16.ofNat (load16 data (ipHdrLen data)))
        (bytesOf (behind data (ipHdrLen data + udpHeaderLen)) (udpLen - udpHeaderLen))] := by
  obtain ⟨entry, hentry, hserves⟩ := h
  unfold dispatch
  rw [find_serves host.handlers.unique hentry hserves]
  exact ⟨_, _, rfl⟩

theorem UdpPasses.shows (hpasses : UdpPasses host data) (hlen : ipHeaderLen ≤ len)
    (hlengths : UdpLengths data len)
    (hserved : ∃ entry ∈ host.handlers.entries,
      entry.serves (UInt16.ofNat (be16 data (ipHdrLen data + 2))) = true)
    (hlong : len < ipHdrLen data + be16 data (ipHdrLen data + 4)) : ∃ data', AgreeBelow len data' data ∧
      (handleUdp host data' len (ipHdrLen data)).2 ≠ (handleUdp host data len (ipHdrLen data)).2 := by
  obtain ⟨last, hlast⟩ : ∃ last, ipHdrLen data + be16 data (ipHdrLen data + 4) = last + 1 :=
    Nat.exists_eq_succ_of_ne_zero (by omega)
  obtain ⟨data', hdef⟩ : ∃ data', data' = Function.update data last (data last + 1) := ⟨_, rfl⟩
  have hdata : AgreeBelow len data' data := by
    rw [hdef]
    exact agreeBelow_update (by omega)
  have hheader := hdata.sameHeader hlen
  have hudp := hdata.sameUdp hlengths.header
  have hudpHeader := hlengths.header
  have hserved' : ∃ entry ∈ host.handlers.entries,
      entry.serves (UInt16.ofNat (be16 data' (ipHdrLen data' + 2))) = true := by
    rw [hheader.hdrLen, hudp.destPort]
    exact hserved
  refine ⟨data', hdata, ?_⟩
  have hafter := handleUdp_of_lengths host (hlengths.congr hdata hheader)
  obtain ⟨handler, userdata, hout⟩ := dispatch_of_served hserved (be16 data (ipHdrLen data + 4))
  obtain ⟨handler', userdata', hout'⟩ := dispatch_of_served hserved' (be16 data (ipHdrLen data + 4))
  rw [hheader.hdrLen] at hafter hout'
  rw [hudp.udpLen] at hafter
  rw [handleUdp_of_lengths host hlengths, if_pos hpasses, hout, hafter]
  split
  · rw [hout']
    intro heq
    have hpayload := (Output.udp.inj (cons.inj heq).1).2.2.2.2
    refine bytesOf_ne (k := last - (ipHdrLen data + udpHeaderLen)) (by omega) ?_ hpayload
    show data' (ipHdrLen data + udpHeaderLen + (last - (ipHdrLen data + udpHeaderLen))) ≠
      data (ipHdrLen data + udpHeaderLen + (last - (ipHdrLen data + udpHeaderLen)))
    rw [Nat.add_sub_cancel' (by omega), hdef, update_self]
    exact succ_ne_self _
  · exact cons_ne_nil _ _ ∘ Eq.symm

theorem LongUdp.shows (h : LongUdp host data len) (hlen : ipHeaderLen ≤ len) :
    ∃ data₁ data₂, AgreeBelow len data₁ data ∧ AgreeBelow len data₂ data ∧
      (handleUdp host data₂ len (ipHdrLen data)).2 ≠ (handleUdp host data₁ len (ipHdrLen data)).2 := by
  obtain ⟨data₁, hdata₁, hpasses⟩ := h.passes
  have hheader := hdata₁.sameHeader hlen
  have hudp := hdata₁.sameUdp h.lengths.header
  have hserved := h.handler
  have hlong := h.long
  rw [← hudp.destPort, ← hheader.hdrLen] at hserved
  rw [← hudp.udpLen, ← hheader.hdrLen] at hlong
  obtain ⟨data₂, hdata₂, hne⟩ := hpasses.shows hlen (h.lengths.congr hdata₁ hheader) hserved hlong
  rw [hheader.hdrLen] at hne
  exact ⟨data₁, data₂, hdata₁, fun k hk => (hdata₂ k hk).trans (hdata₁ k hk), hne⟩

end Udp

section Segments

variable {c : Conn} {seg : Segment} {data data' : Mem} {len ipHdr : Nat}

theorem onData_congr {payload : Mem}
    (h : InOrder c seg → bytesOf payload (takes c seg) = bytesOf seg.payload (takes c seg)) :
    onData { seg with payload := payload } c = onData seg c := by
  by_cases horder : InOrder c seg
  · unfold onData
    rw [if_pos ⟨horder.1, horder.2.1⟩, if_pos horder.2.2, if_pos ⟨horder.1, horder.2.1⟩, if_pos horder.2.2]
    have hbytes := h horder
    unfold takes at hbytes
    dsimp only
    rw [hbytes]
  · by_cases hflags : seg.payloadLen > 0 ∧ (seg.has tcpPsh ∨ seg.has tcpAck)
    · have hseq : ¬ seg.seq = c.myAck := fun hseq => horder ⟨hflags.1, hflags.2, hseq⟩
      calc onData { seg with payload := payload } c
          = (c, [pureAck c]) := (if_pos hflags).trans (if_neg hseq)
        _ = onData seg c := ((if_pos hflags).trans (if_neg hseq)).symm
    · calc onData { seg with payload := payload } c
          = (c, []) := if_neg hflags
        _ = onData seg c := (if_neg hflags).symm

def onEnd (seg : Segment) (r : Conn × List Sent) : Conn × List Sent :=
  let (c, out) := if seg.has tcpFin then onFin seg r.1 else (r.1, [])
  (if seg.has tcpRst then { c with state := .closed } else c, r.2 ++ out)

theorem onSegment_onEnd (seg : Segment) (c : Conn) :
    onSegment seg c = onEnd seg (onData seg (if seg.has tcpAck then onAck seg c else c)) := rfl

theorem handleSegment_congr (ticks : UInt32) {payload : Mem} (h : Handled c seg → InOrder c seg →
      bytesOf payload (takes c seg) = bytesOf seg.payload (takes c seg)) :
    handleSegment ticks { seg with payload := payload } c = handleSegment ticks seg c := by
  by_cases hhandled : Handled c seg
  · have hhandled' : Handled c { seg with payload := payload } := hhandled
    rw [handleSegment_of_handled ticks hhandled, handleSegment_of_handled ticks hhandled']
    have hdata : onData { seg with payload := payload } (if seg.has tcpAck then onAck seg c else c) =
        onData seg (if seg.has tcpAck then onAck seg c else c) := by
      split
      · exact onData_congr (h hhandled)
      · exact onData_congr (h hhandled)
    calc onSegment { seg with payload := payload } c
        = onEnd seg (onData { seg with payload := payload }
            (if seg.has tcpAck then onAck seg c else c)) := rfl
      _ = onSegment seg c := by rw [hdata, onSegment_onEnd]
  · unfold handleSegment
    show (if !accepts c seg then (c, []) else if c.state = .listen then onListen ticks seg c
      else if c.state = .synRcvd ∧ seg.has tcpAck then (onSynRcvd seg c, [])
      else if seg.has tcpSyn ∧ seg.has tcpAck then onSynAck seg c
      else onSegment { seg with payload := payload } c) = _
    split
    · rfl
    · split
      · rfl
      · split
        · rfl
        · split
          · rfl
          · rename_i haccepts hlisten hrcvd hsyn
            exact absurd ⟨by simpa using haccepts, hlisten, hrcvd, hsyn⟩ hhandled

theorem handleSegment_rxBuf (ticks : UInt32) (hhandled : Handled c seg) (horder : InOrder c seg)
    (payload : Mem) : (handleSegment ticks { seg with payload := payload } c).1.rxBuf =
      c.rxBuf.take tcpRxBufSize ++ bytesOf payload (takes c seg) := by
  have hhandled' : Handled c { seg with payload := payload } := hhandled
  have horder' : InOrder c { seg with payload := payload } := horder
  rw [handleSegment_of_handled ticks hhandled', (onSegment_received _ c).rxBuf, onData_of_inOrder horder']
  rfl

theorem readSegment_congr (hdata : AgreeBelow len data' data) (hlen : ipHeaderLen ≤ len) :
    readSegment data' len ipHdr = (readSegment data len ipHdr).map fun seg =>
      { seg with payload := fun k => data' (ipHdr + (data (ipHdr + 12)).toNat / 16 * 4 + k) } := by
  unfold ipHeaderLen at hlen
  unfold readSegment
  dsimp only
  rw [hdata.be16 (a := 2) (by omega)]
  split
  · rfl
  · rename_i hshort
    unfold tcpHeaderSize at hshort
    rw [hdata.load32 (by omega), hdata.be16 (a := ipHdr) (by omega),
      hdata.be16 (a := ipHdr + 2) (by omega), hdata.be32 (a := ipHdr + 4) (by omega),
      hdata.be32 (a := ipHdr + 8) (by omega), hdata (ipHdr + 12) (by omega),
      hdata (ipHdr + 13) (by omega)]
    rfl

theorem readSegment_payload (h : readSegment data len ipHdr = some seg) :
    seg.payload = fun k => data (ipHdr + (data (ipHdr + 12)).toNat / 16 * 4 + k) := by
  unfold readSegment at h
  dsimp only at h
  split at h
  · cases h
  · cases h
    rfl

theorem handleTcp_congr {host : Host} (ticks : UInt32) (hdata : AgreeBelow len data' data)
    (hlen : ipHeaderLen ≤ len) (hprotocol : ipProtocol data = ipProtoTcp) (hnot : ¬ LongTcp host data len) :
    handleTcp ticks data' len (ipHdrLen data) host.conn =
      handleTcp ticks data len (ipHdrLen data) host.conn := by
  unfold handleTcp
  rw [readSegment_congr hdata hlen]
  cases hread : readSegment data len (ipHdrLen data) with
  | none => rfl
  | some seg =>
    refine handleSegment_congr ticks fun hhandled horder => ?_
    rw [readSegment_payload hread]
    refine AgreeBelow.bytesOf fun k hk => hdata _ ?_
    by_contra hlong
    exact hnot ⟨hprotocol, seg, hread, hhandled, horder, by omega, by omega⟩

theorem LongTcp.shows {host : Host} (h : LongTcp host data len) (hlen : ipHeaderLen ≤ len)
    (ticks : UInt32) : ∃ data', AgreeBelow len data' data ∧
      (handleTcp ticks data' len (ipHdrLen data) host.conn).1.rxBuf ≠
        (handleTcp ticks data len (ipHdrLen data) host.conn).1.rxBuf := by
  obtain ⟨seg, hread, hhandled, horder, hpos, hlong⟩ := h.segment
  obtain ⟨off, hoff⟩ : ∃ off, off = ipHdrLen data + (data (ipHdrLen data + 12)).toNat / 16 * 4 := ⟨_, rfl⟩
  obtain ⟨last, hlast⟩ : ∃ last, takes host.conn seg = last + 1 := Nat.exists_eq_succ_of_ne_zero (by omega)
  have hdata : AgreeBelow len (Function.update data (off + last) (data (off + last) + 1)) data :=
    agreeBelow_update (by omega)
  refine ⟨_, hdata, ?_⟩
  unfold handleTcp
  rw [readSegment_congr hdata hlen, hread, map_some, ← hoff]
  intro heq
  have hbytes := append_cancel_left ((handleSegment_rxBuf ticks hhandled horder _).symm.trans
    (heq.trans (handleSegment_rxBuf ticks hhandled horder seg.payload)))
  refine bytesOf_ne (k := last) (by omega) ?_ hbytes
  rw [readSegment_payload hread, ← hoff]
  rw [update_self]
  exact succ_ne_self _

end Segments

section Datagrams

variable {host : Host} {data data' : Mem} {len : Nat} {srcMac : Mac} {ticks : UInt32}
  {b₁ b₂ b₃ : Mem}

/-- The datagram is accepted, and its headers claim more bytes than were received where these bytes
are used. -/
def Leaks (host : Host) (data : Mem) (len : Nat) : Prop :=
  Accepted host data len ∧ (LongEcho data len ∨ LongUdp host data len ∨ LongTcp host data len)

def learnt (host : Host) (data : Mem) (srcMac : Mac) : Host :=
  { host with arpCache := arpAdd host.arpCache (ipSrc data) srcMac }

theorem handleIp_of_accepted (h : Accepted host data len) : handleIp host data len srcMac ticks =
      if ipProtocol data = ipProtoIcmp then handleIcmp (learnt host data srcMac) data len srcMac
      else if ipProtocol data = ipProtoUdp then
        handleUdp (learnt host data srcMac) data len (ipHdrLen data)
      else if ipProtocol data = ipProtoTcp then
        ({ learnt host data srcMac with conn := (handleTcp ticks data len (ipHdrLen data) host.conn).1 },
          (handleTcp ticks data len (ipHdrLen data) host.conn).2.map .tcp)
      else (learnt host data srcMac, []) := by
  have hheader := h.header
  have hoptions := h.options
  unfold handleIp
  rw [if_neg (by omega), if_neg (by omega), if_neg (not_not.mpr h.checksum), if_neg (not_not.mpr h.dest)]
  rfl

theorem Accepted.congr (h : Accepted host data len) (hdata : AgreeBelow len data' data) :
    Accepted (host.withBuffers b₁ b₂ b₃) data' len := by
  have hheader := hdata.sameHeader h.header
  exact
    { header := h.header
      options := hheader.hdrLen ▸ h.options
      checksum := by
        rw [hheader.hdrLen, ← h.checksum]
        exact checksum_congr (hdata.mono h.options)
      dest := hheader.dest.trans h.dest }

theorem handleIp_of_not_accepted (h : ¬ Accepted host data len) : handleIp host data len srcMac ticks =
      (if len < ipHeaderLen ∨ len < ipHdrLen data ∨ checksum data (ipHdrLen data) ≠ 0 then host
        else learnt host data srcMac, []) := by
  unfold handleIp
  by_cases hlen : len < ipHeaderLen
  · rw [if_pos hlen, if_pos (.inl hlen)]
  · by_cases hoptions : len < ipHdrLen data
    · rw [if_neg hlen, if_pos hoptions, if_pos (.inr (.inl hoptions))]
    · by_cases hsum : checksum data (ipHdrLen data) ≠ 0
      · rw [if_neg hlen, if_neg hoptions, if_pos hsum, if_pos (.inr (.inr hsum))]
      · have hdest : ipDest data ≠ host.ourIp := fun hdest =>
          h ⟨by omega, by omega, not_not.mp hsum, hdest⟩
        rw [if_neg hlen, if_neg hoptions, if_neg hsum, if_pos hdest, if_neg (by omega)]
        rfl

theorem confined_of_not_leaks (h : ¬ Leaks host data len) : Confined host data len srcMac ticks := by
  intro data' b₁ b₂ b₃ hdata
  by_cases haccepted : Accepted host data len
  · have hheader := hdata.sameHeader haccepted.header
    have hlearnt : learnt (host.withBuffers b₁ b₂ b₃) data' srcMac =
        (learnt host data srcMac).withBuffers b₁ b₂ b₃ := by
      unfold learnt
      rw [hheader.src]
      rfl
    have hno : ¬ (LongEcho data len ∨ LongUdp host data len ∨ LongTcp host data len) :=
      fun hlong => h ⟨haccepted, hlong⟩
    rw [handleIp_of_accepted haccepted, handleIp_of_accepted (haccepted.congr hdata),
      hheader.protocol, hheader.hdrLen, hlearnt, Host.withBuffers_conn]
    by_cases hicmp : ipProtocol data = ipProtoIcmp
    · rw [if_pos hicmp, if_pos hicmp]
      exact handleIcmp_congr hdata hheader hicmp fun hlong => hno (.inl hlong)
    · rw [if_neg hicmp, if_neg hicmp]
      by_cases hudp : ipProtocol data = ipProtoUdp
      · rw [if_pos hudp, if_pos hudp]
        refine ⟨handleUdp_congr hdata hheader hudp fun hlong => hno (.inr (.inl ?_)), ?_⟩
        · exact ⟨hlong.protocol, hlong.lengths, hlong.handler, hlong.long, hlong.passes⟩
        · rw [handleUdp_shown, handleUdp_shown]
          rfl
      · rw [if_neg hudp, if_neg hudp]
        by_cases htcp : ipProtocol data = ipProtoTcp
        · rw [if_pos htcp, if_pos htcp, handleTcp_congr ticks hdata haccepted.header htcp
            fun hlong => hno (.inr (.inr hlong))]
          exact ⟨rfl, rfl⟩
        · rw [if_neg htcp, if_neg htcp]
          exact ⟨rfl, rfl⟩
  · have haccepted' : ¬ Accepted (host.withBuffers b₁ b₂ b₃) data' len := by
      intro h'
      have hback : Accepted ((host.withBuffers b₁ b₂ b₃).withBuffers host.sendBuf host.replyBuf
          host.checksumBuf) data len := h'.congr fun k hk => (hdata k hk).symm
      exact haccepted hback
    rw [handleIp_of_not_accepted haccepted, handleIp_of_not_accepted haccepted']
    refine ⟨rfl, ?_⟩
    by_cases hlen : len < ipHeaderLen
    · rw [if_pos (.inl hlen), if_pos (.inl hlen)]
      rfl
    · have hheader := hdata.sameHeader (Nat.le_of_not_lt hlen)
      by_cases hoptions : len < ipHdrLen data
      · rw [hheader.hdrLen, if_pos (.inr (.inl hoptions)), if_pos (.inr (.inl hoptions))]
        rfl
      · have hsum : checksum data' (ipHdrLen data) = checksum data (ipHdrLen data) :=
          checksum_congr (hdata.mono (Nat.le_of_not_lt hoptions))
        rw [hheader.hdrLen, hsum]
        split
        · rfl
        · unfold learnt
          rw [hheader.src]
          rfl

theorem Accepted.learnt_congr (h : Accepted host data len) (hdata : AgreeBelow len data' data) (srcMac : Mac) :
    Accepted host data' len ∧ learnt host data' srcMac = learnt host data srcMac := by
  have haccepted : Accepted (host.withBuffers host.sendBuf host.replyBuf host.checksumBuf) data'
    len := h.congr hdata
  refine ⟨haccepted, ?_⟩
  unfold learnt
  rw [(hdata.sameHeader h.header).src]

theorem not_confined_of_leaks (h : Leaks host data len) : ¬ Confined host data len srcMac ticks := by
  intro hconfined
  obtain ⟨haccepted, hlong⟩ := h
  have hsame {data' : Mem} (hdata : AgreeBelow len data' data) :
      (handleIp host data' len srcMac ticks).2 = (handleIp host data len srcMac ticks).2 ∧
        (handleIp host data' len srcMac ticks).1.shown =
          (handleIp host data len srcMac ticks).1.shown :=
    hconfined data' host.sendBuf host.replyBuf host.checksumBuf hdata
  rcases hlong with hlong | hlong | hlong
  · have hdata : AgreeBelow len (Function.update data len (data len + 1)) data := agreeBelow_update le_rfl
    obtain ⟨haccepted', hlearnt⟩ := haccepted.learnt_congr hdata srcMac
    have hout := (hsame hdata).1
    rw [handleIp_of_accepted haccepted', handleIp_of_accepted haccepted,
      (hdata.sameHeader haccepted.header).protocol, if_pos hlong.protocol, if_pos hlong.protocol,
      hlearnt] at hout
    have hdest : ipDest data = (learnt host data srcMac).ourIp := haccepted.dest
    exact hlong.shows haccepted.header hdest hout
  · have hlong' : LongUdp (learnt host data srcMac) data len :=
      ⟨hlong.protocol, hlong.lengths, hlong.handler, hlong.long, hlong.passes⟩
    obtain ⟨data₁, data₂, hdata₁, hdata₂, hne⟩ := hlong'.shows haccepted.header
    have hudp {data' : Mem} (hdata : AgreeBelow len data' data) :
        (handleIp host data' len srcMac ticks).2 =
          (handleUdp (learnt host data srcMac) data' len (ipHdrLen data)).2 := by
      obtain ⟨haccepted', hlearnt⟩ := haccepted.learnt_congr hdata srcMac
      have hheader := hdata.sameHeader haccepted.header
      rw [handleIp_of_accepted haccepted', hheader.protocol, hheader.hdrLen, hlong.protocol,
        if_neg (by decide), if_pos rfl, hlearnt]
    refine hne ?_
    rw [← hudp hdata₁, ← hudp hdata₂, (hsame hdata₁).1, (hsame hdata₂).1]
  · obtain ⟨data', hdata, hne⟩ := hlong.shows haccepted.header ticks
    obtain ⟨haccepted', -⟩ := haccepted.learnt_congr hdata srcMac
    have hheader := hdata.sameHeader haccepted.header
    have hconn := congrArg (fun host => host.conn.rxBuf) (hsame hdata).2
    rw [handleIp_of_accepted haccepted', handleIp_of_accepted haccepted, hheader.protocol,
      hheader.hdrLen, hlong.protocol, if_neg (by decide), if_neg (by decide), if_pos rfl,
      if_neg (by decide), if_neg (by decide), if_pos rfl] at hconn
    exact hne hconn

/-- A datagram shows nothing of the memory behind it, unless its headers claim more bytes than were received. -/
theorem confined_iff (host : Host) (data : Mem) (len : Nat) (srcMac : Mac) (ticks : UInt32) :
    Confined host data len srcMac ticks ↔ ¬ Leaks host data len :=
  ⟨fun hconfined hleaks => not_confined_of_leaks hleaks hconfined, confined_of_not_leaks⟩

end Datagrams

section Trial

def trialEcho : Mem := fun k =>
  [0x45, 0, 0, 29, 0, 0, 0x40, 0, 64, 1, 0x22, 0xD0, 10, 0, 2, 2, 10, 0, 2, 15, 8].getD k 0

theorem trialEcho_leaks : Leaks trialHost trialEcho 28 := by
  refine ⟨⟨by decide, by decide, ?_, by decide⟩, .inl ⟨by decide, by decide, by decide, by decide,
    by decide, by decide⟩⟩
  have hsum : sumBytes trialEcho (ipHdrLen trialEcho) = 0xFFFF := by decide
  unfold checksum
  rw [hsum, fold_of_pos (by decide)]

/-- Of 28 bytes received, 29 are answered. -/
theorem confined_echo_fails : ¬ ∀ host data len srcMac ticks, Confined host data len srcMac ticks := by
  intro h
  exact not_confined_of_leaks trialEcho_leaks (h trialHost trialEcho 28 (fun _ => 2) 0)

end Trial

end JexOs.Net
