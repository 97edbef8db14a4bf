import JexOs.NetSend
import JexOs.Proof.DhcpSend
import JexOs.Proof.TcpSent

/-!
# Checksums verify

A checksum that is stored in its field, which was 0 when it was computed, makes the checksum of the whole 0.
-/

namespace JexOs.Net

open ByteMem Tcp Dhcp List Option

section Law

variable {m : Mem} {len f v : Nat}

def exactSum (m : Mem) (len : Nat) : Nat :=
  ((List.range (len / 2)).map fun i => load16 m (2 * i)).sum +
    if len % 2 = 1 then (m (len - 1)).toNat else 0

theorem sumWords_eq {n : Nat} (hn : n ≤ 2 ^ 16) :
    sumWords m n = ((List.range n).map fun i => load16 m (2 * i)).sum := by
  induction n with
  | zero => rfl
  | succ n ih =>
    have hle := sumWords_le m n
    have hword := load16_lt m (2 * n)
    rw [sumWords, Nat.mod_eq_of_lt (by omega), ih (by omega), range_succ, map_append,
      sum_append, map_singleton, sum_singleton]

theorem sumBytes_eq (hlen : len ≤ 65535) : sumBytes m len = exactSum m len ∧
    exactSum m len < 2 ^ 32 := by
  have hle := sumWords_le m (len / 2)
  have hbyte := (m (len - 1)).toNat_lt
  unfold sumBytes exactSum
  rw [← sumWords_eq (by omega)]
  split
  · rw [Nat.mod_eq_of_lt (by omega)]
    exact ⟨rfl, by omega⟩
  · exact ⟨rfl, by omega⟩

theorem sumBytes_store16 (hlen : len ≤ 65535) (hf : f % 2 = 0) (hfit : f + 2 ≤ len)
    (hv : v < 2 ^ 16)
    (hzero : load16 m f = 0) : sumBytes (store16 m f v) len = sumBytes m len + v := by
  have hwords : sumWords (store16 m f v) (len / 2) = sumWords m (len / 2) + v := by
    rw [← Nat.mul_div_cancel' (Nat.dvd_of_mod_eq_zero hf)] at hzero ⊢
    exact sumWords_store16 (by omega) (by omega) hv hzero
  have hle' := sumWords_le (store16 m f v) (len / 2)
  unfold sumBytes
  split
  · have hlast : store16 m f v (len - 1) = m (len - 1) := blit_of_ge (by omega)
    have hbyte := (m (len - 1)).toNat_lt
    rw [hlast, hwords, Nat.mod_eq_of_lt (by omega), Nat.mod_eq_of_lt (by omega)]
    omega
  · exact hwords

theorem fold_add_complement_self (s : Nat) : fold (s + (0xFFFF - fold s)) = 0xFFFF := by
  rcases Nat.eq_zero_or_pos s with rfl | hpos
  · rw [fold_zero, fold_of_pos (by decide)]
  · exact fold_add_complement hpos

theorem checksum_lt (m : Mem) (len : Nat) : checksum m len < 2 ^ 16 := by
  unfold checksum
  omega

theorem checksum_fills (hlen : len ≤ 65535) (hf : f % 2 = 0) (hfit : f + 2 ≤ len)
    (hzero : load16 m f = 0) : checksum (store16 m f (checksum m len)) len = 0 := by
  rw [checksum, sumBytes_store16 hlen hf hfit (checksum_lt m len) hzero, checksum,
    fold_add_complement_self]

theorem checksum_fills_nonzero (hlen : len ≤ 65535) (hf : f % 2 = 0) (hfit : f + 2 ≤ len)
    (hzero : load16 m f = 0) :
    checksum (store16 m f (if checksum m len = 0 then 0xFFFF else checksum m len)) len = 0 := by
  split
  · rename_i hsum
    have hfold := fold_le (sumBytes m len)
    have hpos : 0 < sumBytes m len := by
      rcases Nat.eq_zero_or_pos (sumBytes m len) with h | h
      · rw [checksum, h, fold_zero] at hsum
        cases hsum
      · exact h
    unfold checksum at hsum
    rw [checksum, sumBytes_store16 hlen hf hfit (by decide) hzero, fold_of_pos (by omega)]
    rw [fold_of_pos hpos] at hsum hfold
    omega
  · exact checksum_fills hlen hf hfit hzero

theorem load16_store16_zero (m : Mem) (f : Nat) : load16 (store16 m f 0) f = 0 :=
  load16_store16 (by decide)

end Law

/-! ### What the receiver checks -/

def pseudoOf (buf : Mem) (srcIp destIp : UInt32) (proto : UInt8) (len : Nat) : Mem :=
  let m := store32 buf 0 srcIp.toNat
  let m := store32 m 4 destIp.toNat
  let m := store8 m 8 0
  let m := store8 m 9 proto
  storeBe16 m 10 len

def Carries (frame : List UInt8) (d : Mem) : Prop :=
  ∀ k, ethHeaderLen + k < frame.length → d k = frame.getD (ethHeaderLen + k) 0

section Checks

variable (d : Mem)

def transportSum (len : Nat) : Nat :=
  checksum (blit (pseudoOf (fun _ => 0) (ipSrc d) (ipDest d) (ipProtocol d) len) 12 len
    (behind d (ipHdrLen d))) (12 + len)

def IcmpVerifies : Prop := checksum (behind d (ipHdrLen d)) (ipTotalLen d - ipHdrLen d) = 0

/-- The sum is 0, and `handle_udp` computes the checksum that is there, which is not 0. -/
def UdpVerifies : Prop :=
  let udp := behind d (ipHdrLen d)
  transportSum d (be16 udp 4) = 0 ∧ load16 udp 6 ≠ 0 ∧
    ∀ buf, (udpChecksum buf (ipSrc d) (ipDest d) (withoutChecksum udp) (be16 udp 4)).1 =
      load16 udp 6

def TcpVerifies : Prop := transportSum d (ipTotalLen d - ipHdrLen d) = 0

end Checks

structure Verifies (proto : UInt8) (d : Mem) : Prop where
  header : checksum d (ipHdrLen d) = 0
  icmp : proto = ipProtoIcmp → IcmpVerifies d
  udp : proto = ipProtoUdp → UdpVerifies d
  tcp : proto = ipProtoTcp → TcpVerifies d

/-- The datagrams that the stack sends, with `len` bytes handed to `net_send_udp`. -/
inductive Built (len : Nat) : UInt8 → List UInt8 → Prop where
  | udp {destIp destPort srcPort data host frame host'}
      (h : netSendUdp destIp destPort srcPort data len host = some (frame, host')) :
      Built len ipProtoUdp frame
  | ping {destIp icmpSeq host frame} (h : netPing destIp icmpSeq host = some frame) :
      Built len ipProtoIcmp frame
  | echo {host data size srcMac ticks frame}
      (h : Output.frame frame ∈ (handleIp host data size srcMac ticks).2) :
      Built len ipProtoIcmp frame
  | dns {xid hostname query destIp host frame host'} (hquery : dnsQuery xid hostname = some query)
      (h : netSendUdp destIp dnsPort dnsClientPort (memOf query) query.length host =
        some (frame, host')) : Built len ipProtoUdp frame
  | dhcp (msgType : UInt8) (requestedIp serverId xid : UInt32) (host : Host) :
      Built len ipProtoUdp (dhcpSendMsg msgType requestedIp serverId xid host).1
  | tcp {m e m' out segment} (h : Tcp.step m e = some (m', out)) (hsent : .sent segment ∈ out)
      (pktBuf checksumBuf : Mem) (dstMac : Mac) (host : Host) (c : Conn) :
      Built len ipProtoTcp (sendTcpSegment pktBuf checksumBuf dstMac host c segment)

/-- A checksum over a field that was set to 0 makes the checksum of the whole 0, no sum overflows, and
what the stack sends verifies. -/
structure ChecksumLaw (len : Nat) : Prop where
  fills : ∀ (m : Mem) (n f : Nat), n ≤ 65535 → f % 2 = 0 → f + 2 ≤ n →
    checksum (store16 (store16 m f 0) f (checksum (store16 m f 0) n)) n = 0
  exact : ∀ (m : Mem) (n : Nat), n ≤ 65535 → sumBytes m n = exactSum m n ∧ exactSum m n < 2 ^ 32
  verifies : ∀ (proto : UInt8) (frame : List UInt8) (d : Mem), Built len proto frame →
    Carries frame d → Verifies proto d

section Headers

variable {d d' b : Mem} {proto : UInt8} {src dest : UInt32} {n : Nat}

structure Headed (d : Mem) (proto : UInt8) (src dest : UInt32) (n : Nat) : Prop where
  first : d 0 = 0x45
  total : be16 d 2 = 20 + n
  protocol : d 9 = proto
  src : load32 d 12 = src.toNat
  dest : load32 d 16 = dest.toNat
  sum : checksum d 20 = 0

structure Fields (b : Mem) (proto : UInt8) (src dest : UInt32) (n : Nat) : Prop where
  first : b 0 = 0x45
  total : be16 b 2 = 20 + n
  protocol : b 9 = proto
  zero : load16 b 10 = 0
  src : load32 b 12 = src.toNat
  dest : load32 b 16 = dest.toNat

variable (h : Headed d proto src dest n)

include h

theorem Headed.congr (hd : ∀ k < 20, d' k = d k) : Headed d' proto src dest n :=
  { first := (hd 0 (by decide)).trans h.first
    total := (be16_congr fun k _ hk => hd k (by omega)).trans h.total
    protocol := (hd 9 (by decide)).trans h.protocol
    src := (load32_congr fun k _ hk => hd k (by omega)).trans h.src
    dest := (load32_congr fun k _ hk => hd k (by omega)).trans h.dest
    sum := (checksum_congr hd).trans h.sum }

omit h in
theorem Fields.fill (h : Fields b proto src dest n) :
    Headed (store16 b 10 (checksum b 20)) proto src dest n :=
  { first := (blit_of_lt (by decide)).trans h.first
    total := (be16_congr fun k _ hk => blit_of_lt (by omega)).trans h.total
    protocol := (blit_of_lt (by decide)).trans h.protocol
    src := (load32_congr fun k hk _ => blit_of_ge (by omega)).trans h.src
    dest := (load32_congr fun k hk _ => blit_of_ge (by omega)).trans h.dest
    sum := checksum_fills (by decide) (by decide) (by decide) h.zero }

omit h in
theorem behind_store16 (m : Mem) (p f v : Nat) :
    behind (store16 m (p + f) v) p = store16 (behind m p) f v := by
  funext k
  refine if_congr (by omega) ?_ rfl
  exact congrArg (byteOf v) (by omega)

omit h in
theorem behind_storeBe16 (m : Mem) (p f v : Nat) :
    behind (storeBe16 m (p + f) v) p = storeBe16 (behind m p) f v := by
  funext k
  refine if_congr (by omega) ?_ rfl
  exact congrArg (fun i => byteOf v (1 - i)) (by omega)

theorem Headed.fields (hn : n ≤ 65515) :
    Fields (store16 (storeBe16 d 2 (20 + n)) 10 0) proto src dest n := by
  have hkeep {k : Nat} (hk : k < 2 ∨ 4 ≤ k) (hk' : k < 10 ∨ 12 ≤ k) :
      store16 (storeBe16 d 2 (20 + n)) 10 0 k = d k := by
    unfold store16 storeBe16 blit
    rw [if_neg (by omega), if_neg (by omega)]
  refine
    { first := (hkeep (by decide) (by decide)).trans h.first
      total := ?_
      protocol := (hkeep (by decide) (by decide)).trans h.protocol
      zero := load16_store16_zero _ _
      src := (load32_congr fun k hlow hhigh => hkeep (by omega) (by omega)).trans h.src
      dest := (load32_congr fun k hlow hhigh => hkeep (by omega) (by omega)).trans h.dest }
  refine (be16_congr fun k hlow hhigh => ?_).trans (be16_storeBe16 (m := d) (a := 2) (by omega))
  exact blit_of_lt (by omega)

omit h in
theorem fields_ipHeaderFields (buf : Mem) (id : UInt16) (hn : n ≤ 65515) :
    Fields (behind (ipHeaderFields buf 14 proto src dest n id) 14) proto src dest n := by
  have hmod : ipHeaderLen + n % 2 ^ 16 = 20 + n := by
    unfold ipHeaderLen
    omega
  refine
    { first := ?_
      total := ?_
      protocol := ?_
      zero := ?_
      src := ?_
      dest := ?_ }
  · unfold behind ipHeaderFields store8 storeBe16 store16 store32
    simp [blit]
  · unfold ipHeaderFields
    rw [hmod]
    refine be16_byteOf (by omega) fun k hk => ?_
    unfold behind store32 store16 store8 storeBe16
    simp (disch := omega) only [blit_of_lt]
    rw [← Nat.add_assoc, blit_add hk]
  · unfold behind ipHeaderFields store8 storeBe16 store16 store32
    simp [blit]
  · unfold behind ipHeaderFields store8 storeBe16 store16 store32
    simp [blit, load16, byteOf]
  · exact (load32_store32_of_disjoint (by omega)).trans (load32_store32 src.toNat_lt)
  · exact load32_store32 dest.toNat_lt

omit h in
theorem headed_buildIpHeader (buf : Mem) (id : UInt16) (hn : n ≤ 65515) :
    Headed (behind (buildIpHeader buf 14 proto src dest n id) 14) proto src dest n := by
  unfold buildIpHeader
  rw [behind_store16]
  exact (fields_ipHeaderFields buf id hn).fill

theorem Headed.ipHdrLen : Net.ipHdrLen d = 20 := by
  unfold Net.ipHdrLen
  rw [h.first]
  rfl

theorem Headed.ipTotalLen : Net.ipTotalLen d = 20 + n := h.total

theorem Headed.ipSrc : Net.ipSrc d = src := by
  unfold Net.ipSrc
  rw [h.src, UInt32.ofNat_toNat]

theorem Headed.ipDest : Net.ipDest d = dest := by
  unfold Net.ipDest
  rw [h.dest, UInt32.ofNat_toNat]

theorem Headed.header : checksum d (Net.ipHdrLen d) = 0 := by
  rw [h.ipHdrLen]
  exact h.sum

end Headers

section Transport

variable {d m s : Mem} {proto : UInt8} {src dest : UInt32} {n f : Nat}

theorem pseudoOf_congr {buf buf' : Mem} {k : Nat} (hk : k < 12) :
    pseudoOf buf' src dest proto n k = pseudoOf buf src dest proto n k := by
  unfold pseudoOf storeBe16 store8 store32 blit
  split
  · rfl
  · split
    · rfl
    · split
      · rfl
      · split
        · rfl
        · rw [if_pos (by omega), if_pos (by omega)]

theorem pseudo_fills {s' : Mem} (buf buf' : Mem) (hn : n ≤ 65523) (hf : f % 2 = 0)
    (hfit : f + 2 ≤ n) (hzero : load16 s f = 0) (hs : ∀ k < n, s' k = store16 s f
      (if checksum (blit (pseudoOf buf src dest proto n) 12 n s) (12 + n) = 0 then 0xFFFF
        else checksum (blit (pseudoOf buf src dest proto n) 12 n s) (12 + n)) k) :
    checksum (blit (pseudoOf buf' src dest proto n) 12 n s') (12 + n) = 0 := by
  have hfill := checksum_fills_nonzero (m := blit (pseudoOf buf src dest proto n) 12 n s)
    (f := 12 + f) (show 12 + n ≤ 65535 by omega) (by omega) (by omega) (by
      rw [← hzero]
      unfold load16
      rw [blit_of_mem (by omega) (by omega), blit_of_mem (by omega) (by omega)]
      congr 4
      · omega
      · omega)
  rw [← hfill]
  generalize (if checksum (blit (pseudoOf buf src dest proto n) 12 n s) (12 + n) = 0 then 0xFFFF
    else checksum (blit (pseudoOf buf src dest proto n) 12 n s) (12 + n)) = v at hs
  refine checksum_congr fun k hk => ?_
  by_cases hlow : k < 12
  · rw [blit_of_lt hlow, store16, blit_of_lt (by omega), blit_of_lt hlow]
    exact pseudoOf_congr hlow
  · rw [blit_of_mem (by omega) hk, hs _ (by omega)]
    unfold store16
    by_cases hfield : 12 + f ≤ k ∧ k < 12 + f + 2
    · rw [blit_of_mem (by omega) (by omega), blit_of_mem (by omega) (by omega)]
      congr 1
      omega
    · unfold blit
      rw [if_neg (by omega), if_neg hfield, if_pos (by omega)]

theorem carries_bytesOf {len : Nat} (h : Carries (bytesOf m (14 + len)) d) :
    ∀ k < len, d k = m (14 + k) := by
  intro k hk
  have hlength : (bytesOf m (14 + len)).length = 14 + len := by
    unfold bytesOf
    rw [length_map, length_range]
  rw [h k (by rw [hlength]; exact Nat.add_lt_add_left hk 14), getD_eq_getElem?_getD,
    bytesOf_getElem?, if_pos (show ethHeaderLen + k < 14 + len from Nat.add_lt_add_left hk 14)]
  rfl

theorem byteOf_zero (k : Nat) : byteOf 0 k = 0 := by
  unfold byteOf
  rw [Nat.zero_div]
  rfl

theorem load16_eq_zero (h : ∀ k < 2, m (f + k) = 0) : load16 m f = 0 := by
  unfold load16
  rw [h 1 (by decide), show m f = 0 from h 0 (by decide)]
  rfl

theorem store16_zero {a k : Nat} (hlow : a ≤ k) (hhigh : k < a + 2) : store16 m a 0 k = 0 :=
  (blit_of_mem hlow hhigh).trans (byteOf_zero _)

theorem zero_of_load16 (h : load16 m f = 0) : m f = 0 ∧ m (f + 1) = 0 := by
  unfold load16 at h
  exact ⟨UInt8.toNat_inj.mp (by rw [UInt8.toNat_zero]; omega),
    UInt8.toNat_inj.mp (by rw [UInt8.toNat_zero]; omega)⟩

theorem udp_verifies (buf : Mem) (h : Headed d ipProtoUdp src dest n) (hlow : 8 ≤ n)
    (hhigh : n ≤ 1500) (hlen : be16 m 38 = n) (hzero : load16 m 40 = 0) (hd : ∀ k < 20 + n, d k =
      store16 m 40 (udpChecksum buf src dest (behind m 34) n).1 (14 + k)) : UdpVerifies d := by
  obtain ⟨hpos, hlt⟩ := udpChecksum_range buf src dest (behind m 34) hhigh
  have hsum : (udpChecksum buf src dest (behind m 34) n).1 =
      if checksum (blit (pseudoOf buf src dest ipProtoUdp n) 12 n (behind m 34)) (12 + n) = 0
        then 0xFFFF
        else checksum (blit (pseudoOf buf src dest ipProtoUdp n) 12 n (behind m 34)) (12 + n) := by
    unfold udpChecksum
    rw [if_neg (by omega)]
    rfl
  have hudpLen : be16 (behind d 20) 4 = n := by
    rw [← hlen]
    unfold be16 behind
    rw [hd 24 (by omega), hd 25 (by omega), store16, blit_of_lt (by decide), blit_of_lt (by decide)]
  have hfield : load16 (behind d 20) 6 = (udpChecksum buf src dest (behind m 34) n).1 := by
    rw [← load16_store16 (m := m) (a := 40) hlt, load16, load16]
    exact congrArg₂ (fun (a b : UInt8) => a.toNat + 256 * b.toNat) (hd 26 (by omega))
      (hd 27 (by omega))
  unfold UdpVerifies transportSum
  rw [h.ipHdrLen, h.ipSrc, h.ipDest, show ipProtocol d = ipProtoUdp from h.protocol]
  dsimp only
  rw [hudpLen, hfield]
  refine ⟨?_, Nat.pos_iff_ne_zero.mp hpos, fun buf' => udpChecksum_congr fun k hk => ?_⟩
  · refine pseudo_fills (s := behind m 34) (f := 6) buf _ (by omega) (by decide)
      (by omega) hzero fun k hk => ?_
    rw [← hsum]
    unfold behind
    rw [hd _ (by omega)]
    refine if_congr (by omega) (congrArg _ (by omega)) (congrArg m (by omega))
  · obtain ⟨hfirst, hsecond⟩ := zero_of_load16 hzero
    unfold withoutChecksum store16 blit
    by_cases hk' : 6 ≤ k ∧ k < 6 + 2
    · rcases (by omega : k = 6 ∨ k = 7) with rfl | rfl
      · exact hfirst.symm
      · exact hsecond.symm
    · rw [if_neg hk']
      unfold behind
      rw [hd _ (by omega)]
      unfold store16 blit
      rw [if_neg (by omega)]
      exact congrArg m (by omega)

theorem tcp_verifies (buf : Mem) (h : Headed d ipProtoTcp src dest n) (hlow : 20 ≤ n)
    (hhigh : n ≤ 2048) (hzero : load16 m 50 = 0)
    (hd : ∀ k < 20 + n, d k = store16 m 50 (tcpChecksum buf src dest (behind m 34) n) (14 + k)) :
    TcpVerifies d := by
  unfold TcpVerifies transportSum
  rw [h.ipHdrLen, h.ipTotalLen, h.ipSrc, h.ipDest, show ipProtocol d = ipProtoTcp from h.protocol,
    Nat.add_sub_cancel_left]
  refine pseudo_fills (s := behind m 34) (f := 16) buf _ (by omega) (by decide)
    (by omega) hzero fun k hk => ?_
  have hsum : tcpChecksum buf src dest (behind m 34) n =
      if checksum (blit (pseudoOf buf src dest ipProtoTcp n) 12 n (behind m 34)) (12 + n) = 0
        then 0xFFFF
        else checksum (blit (pseudoOf buf src dest ipProtoTcp n) 12 n (behind m 34)) (12 + n) := by
    unfold tcpChecksum
    rw [if_neg (by unfold tcpPseudoLen tcpTxBufSize; omega)]
    rfl
  rw [← hsum]
  unfold behind
  rw [hd _ (by omega)]
  refine if_congr (by omega) (congrArg _ (by omega)) (congrArg m (by omega))

theorem icmp_verifies (h : Headed d ipProtoIcmp src dest n) (hlow : 8 ≤ n) (hhigh : n ≤ 65515)
    (hzero : load16 m 36 = 0)
    (hd : ∀ k < 20 + n, d k = store16 m 36 (checksum (behind m 34) n) (14 + k)) :
    IcmpVerifies d := by
  unfold IcmpVerifies
  rw [h.ipHdrLen, h.ipTotalLen, Nat.add_sub_cancel_left]
  rw [← @checksum_fills (behind m 34) n 2 (by omega) (by decide) (by omega) hzero]
  refine checksum_congr fun k hk => ?_
  unfold behind
  rw [hd _ (by omega)]
  refine if_congr (by omega) (congrArg _ (by omega)) (congrArg m (by omega))

end Transport

section Builders

variable {d m x : Mem} {proto : UInt8} {src dest : UInt32} {n : Nat} {host : Host}
  {frame : List UInt8}

theorem Headed.kept (h : Headed (behind x 14) proto src dest n) (hm : ∀ k < 34, m k = x k)
    (hd : ∀ k < 20, d k = m (14 + k)) : Headed d proto src dest n := by
  refine h.congr fun k hk => ?_
  rw [hd k hk, hm _ (by omega)]
  rfl

theorem Headed.verifies_icmp (h : Headed d ipProtoIcmp src dest n) (hicmp : IcmpVerifies d) :
    Verifies ipProtoIcmp d :=
  { header := h.header
    icmp := fun _ => hicmp
    udp := fun hproto => absurd hproto (by decide)
    tcp := fun hproto => absurd hproto (by decide) }

theorem Headed.verifies_udp (h : Headed d ipProtoUdp src dest n) (hudp : UdpVerifies d) :
    Verifies ipProtoUdp d :=
  { header := h.header
    icmp := fun hproto => absurd hproto (by decide)
    udp := fun _ => hudp
    tcp := fun hproto => absurd hproto (by decide) }

theorem Headed.verifies_tcp (h : Headed d ipProtoTcp src dest n) (htcp : TcpVerifies d) :
    Verifies ipProtoTcp d :=
  { header := h.header
    icmp := fun hproto => absurd hproto (by decide)
    udp := fun hproto => absurd hproto (by decide)
    tcp := fun _ => htcp }

/-! #### Echo requests -/

theorem netPing_frame {destIp : UInt32} {icmpSeq : UInt16}
    (h : netPing destIp icmpSeq host = some frame) :
    ∃ buf m,
      frame = bytesOf (store16 m 36 (checksum (behind m 34) 40)) (14 + (20 + 40)) ∧ load16 m 36 = 0 ∧
      ∀ k < 34, m k = buildIpHeader buf 14 ipProtoIcmp host.ourIp destIp 40 host.ipId k := by
  obtain ⟨destMac, -, h⟩ := bind_eq_some_iff.mp h
  cases h
  refine ⟨buildEtherHeader host.sendBuf destMac host.ourMac ethertypeIp, _, rfl, ?_, fun k hk => ?_⟩
  · refine load16_eq_zero fun k hk => ?_
    unfold storeBe16
    dsimp only [ethHeaderLen, ipHeaderLen, icmpHeaderLen]
    simp (disch := omega) only [blit_of_lt]
    exact store16_zero (by omega) (by omega)
  · unfold storeBe16 store16 store8
    dsimp only [ethHeaderLen, ipHeaderLen, icmpHeaderLen]
    simp (disch := omega) only [blit_of_lt]

theorem netPing_verifies {destIp : UInt32} {icmpSeq : UInt16}
    (h : netPing destIp icmpSeq host = some frame) (hd : Carries frame d) :
    Verifies ipProtoIcmp d := by
  obtain ⟨buf, m, rfl, hzero, hm⟩ := netPing_frame h
  have hbytes := carries_bytesOf hd
  have hheaded : Headed d ipProtoIcmp host.ourIp destIp 40 := by
    refine (headed_buildIpHeader buf host.ipId (by decide)).kept hm fun k hk => ?_
    rw [hbytes k (by omega)]
    exact blit_of_lt (by omega)
  exact hheaded.verifies_icmp (icmp_verifies hheaded (by decide) (by decide) hzero hbytes)

/-! #### Queries -/

theorem dnsQuery_length {xid : UInt16} {hostname query : List UInt8}
    (h : dnsQuery xid hostname = some query) : query.length ≤ 512 := by
  have hquery := ite_none_right_eq_some.mp h
  rw [← some.inj hquery.2]
  exact hquery.1.2

theorem netSendUdp_verifies {destIp : UInt32} {destPort srcPort : UInt16} {data : Mem} {len : Nat}
    {host' : Host} (hlen : len ≤ 1492)
    (h : netSendUdp destIp destPort srcPort data len host = some (frame, host'))
    (hd : Carries frame d) : Verifies ipProtoUdp d := by
  obtain ⟨-, destMac, csum, rfl, -, -, hcarried⟩ := netSendUdp_carried hlen h hd
  have hheaded : Headed d ipProtoUdp host.ourIp destIp (8 + len) := by
    refine (headed_buildIpHeader (buildEtherHeader host.sendBuf destMac host.ourMac ethertypeIp)
      host.ipId (by omega)).kept
      (fun k hk => @udpFrame_header host destMac destIp destPort srcPort data len k hk)
      fun k hk => ?_
    rw [hcarried.bytes k (by omega)]
    exact blit_of_lt (by omega)
  obtain ⟨-, -, hlength, hzero, -⟩ := udpFrame_udp host destMac destIp destPort srcPort data len
  refine hheaded.verifies_udp (udp_verifies host.checksumBuf hheaded (by omega) (by omega)
    (be16_byteOf (by omega) hlength) (load16_eq_zero hzero) fun k hk => ?_)
  exact hcarried.bytes k (by omega)

/-! #### DHCP messages -/

theorem dhcpOptions_length (msgType : UInt8) (requestedIp serverId : UInt32) :
    (dhcpOptions msgType requestedIp serverId).length ≤ 32 := by
  unfold dhcpOptions
  split <;> simp [ipBytes]

def dhcpBase (host : Host) (xid : UInt32) (options : List UInt8) : Mem :=
  let m := buildEtherHeader host.sendBuf broadcastMac host.ourMac ethertypeIp
  let m := buildIpHeader m 14 ipProtoUdp 0 broadcastIp (dhcpUdpLen options) host.ipId
  let m := storeBe16 m 34 dhcpClientPort
  let m := storeBe16 m 36 dhcpServerPort
  let m := storeBe16 m 38 (dhcpUdpLen options)
  let m := store16 m 40 0
  dhcpMessage m 42 xid host.ourMac options

theorem dhcpMessage_of_lt {a k : Nat} {xid : UInt32} {mac : Mac}
    {options : List UInt8} (hk : k < a) :
    dhcpMessage m a xid mac options k = m k := by
  unfold dhcpMessage storeBe32 storeBe16 store8
  simp (disch := omega) only [blit_of_lt]

section Dhcp

variable (host : Host) (xid : UInt32) (options : List UInt8)

theorem behind_dhcpFrame : behind (dhcpFrame xid host options) 14 =
    let x :=
      store16 (storeBe16 (behind (dhcpBase host xid options) 14) 2 (20 + dhcpUdpLen options)) 10 0
    store16 x 10 (checksum x 20) := by
  have hbase : dhcpFrame xid host options =
      let m := store16
        (storeBe16 (dhcpBase host xid options) (14 + 2) (20 + dhcpUdpLen options)) (14 + 10) 0
      store16 m (14 + 10) (checksum (behind m 14) 20) := rfl
  rw [hbase]
  rw [behind_store16, behind_store16, behind_storeBe16]

theorem dhcpUdpLen_eq : dhcpUdpLen options = 244 + options.length := by
  unfold dhcpUdpLen udpHeaderLen
  rw [dhcpBaseSize_eq]
  omega

theorem dhcpFrame_headed (hlength : options.length ≤ 32) :
    Headed (behind (dhcpFrame xid host options) 14) ipProtoUdp 0 broadcastIp
      (dhcpUdpLen options) := by
  have hn := dhcpUdpLen_eq options
  rw [behind_dhcpFrame]
  refine (Headed.fields (Headed.kept (headed_buildIpHeader
    (buildEtherHeader host.sendBuf broadcastMac host.ourMac ethertypeIp) host.ipId (by omega))
    (fun k hk => ?_) fun k hk => rfl) (by omega)).fill
  unfold dhcpBase
  rw [dhcpMessage_of_lt (by omega), store16, blit_of_lt (by omega), storeBe16,
    blit_of_lt (by omega), storeBe16, blit_of_lt (by omega), storeBe16, blit_of_lt (by omega)]

theorem dhcpFrame_behind {k : Nat} (hk : 34 ≤ k) :
    dhcpFrame xid host options k = dhcpBase host xid options k := by
  have h := congrFun (behind_dhcpFrame host xid options) (k - 14)
  unfold behind store16 storeBe16 at h
  simp (disch := omega) only [blit_of_ge] at h
  rw [show 14 + (k - 14) = k by omega] at h
  exact h

theorem dhcpFrame_udp {k : Nat} (hk : k < 2) :
    dhcpFrame xid host options (38 + k) = byteOf (dhcpUdpLen options) (1 - k) ∧
      dhcpFrame xid host options (40 + k) = 0 := by
  rw [dhcpFrame_behind host xid options (by omega), dhcpFrame_behind host xid options (by omega)]
  unfold dhcpBase
  rw [dhcpMessage_of_lt (by omega), dhcpMessage_of_lt (by omega)]
  refine ⟨?_, store16_zero (by omega) (by omega)⟩
  rw [store16, blit_of_lt (by omega)]
  exact blit_add hk

end Dhcp

theorem dhcpSendMsg_verifies (msgType : UInt8) (requestedIp serverId xid : UInt32)
    (hd : Carries (dhcpSendMsg msgType requestedIp serverId xid host).1 d) :
    Verifies ipProtoUdp d := by
  have hlength := dhcpOptions_length msgType requestedIp serverId
  rw [dhcpSendMsg_frame] at hd
  generalize dhcpOptions msgType requestedIp serverId = options at hd hlength
  have hn := dhcpUdpLen_eq options
  have hsum : sentChecksum xid host options = (udpChecksum host.checksumBuf 0 broadcastIp
      (behind (dhcpFrame xid host options) 34) (dhcpUdpLen options)).1 :=
    if_neg (Nat.pos_iff_ne_zero.mp (udpChecksum_range _ _ _ _ (by omega)).1)
  dsimp only [ethHeaderLen, ipHeaderLen] at hd
  rw [hsum, show 14 + 20 + dhcpUdpLen options =
    14 + (20 + dhcpUdpLen options) from Nat.add_assoc 14 20 _] at hd
  have hbytes := carries_bytesOf hd
  have hheaded : Headed d ipProtoUdp 0 broadcastIp (dhcpUdpLen options) := by
    refine (dhcpFrame_headed host xid options hlength).kept (fun _ _ => rfl) fun k hk => ?_
    rw [hbytes k (by omega)]
    exact blit_of_lt (by omega)
  exact hheaded.verifies_udp (udp_verifies host.checksumBuf hheaded (by omega) (by omega)
    (be16_byteOf (by omega) fun k hk => (dhcpFrame_udp host xid options hk).1)
    (load16_eq_zero fun k hk => (dhcpFrame_udp host xid options hk).2) hbytes)

/-! #### Segments -/

theorem Bare.small {out : List Tcp.Output} (h : Bare out) {segment : Sent}
    (hsent : .sent segment ∈ out) :
    segment.payload.length ≤ chunkSize := by
  rw [h segment hsent]
  exact Nat.zero_le _

theorem chunk_small {data : List UInt8} {sent : Nat} {ok : Bool} {seq ack : UInt32} {segment : Sent}
    (hsent : .sent segment ∈ onWire ok (dataSegment seq ack (chunk data sent))) :
    segment.payload.length ≤ chunkSize := by
  cases ok with
  | false => cases hsent
  | true =>
    cases mem_singleton.mp hsent
    exact length_take_le _ _

theorem step_small {m m' : Machine} {e : Tcp.Event} {out : List Tcp.Output} {segment : Sent}
    (h : Tcp.step m e = some (m', out)) (hsent : .sent segment ∈ out) :
    segment.payload.length ≤ chunkSize := by
  by_cases hsame : e.sameConn = true
  · cases step_sends hsame h with
    | arrive ticks seg => exact Bare.small (handleSegment_bare ticks seg m.conn) hsent
    | opened => exact Bare.small (bare_sent rfl) hsent
    | unopened => exact Bare.small (bare_returned _) hsent
    | begun data =>
      refine Bare.small ?_ hsent
      unfold tcpSend
      split
      · exact bare_returned _
      · exact sendNext_bare _ _ _
    | transmitted => exact @chunk_small _ _ true _ _ _ hsent
    | unresolved => exact Bare.small (bare_returned _) hsent
    | counted => exact Bare.small (sendNext_bare _ _ _) hsent
    | lost => exact Bare.small (bare_returned _) hsent
    | waits => exact Bare.small bare_nil hsent
    | again => exact chunk_small hsent
    | givenUp =>
      rcases mem_append.mp hsent with hsent | hsent
      · exact chunk_small hsent
      · exact Bare.small (bare_returned _) hsent
    | closes => exact Bare.small bare_nil hsent
    | finished => exact Bare.small (bare_onWire _ rfl) hsent
    | aside _ _ _ hbare => exact Bare.small hbare hsent
  · cases e with
    | listen port =>
      dsimp only [Tcp.step, startCall] at h
      split at h
      · cases h
        exact Bare.small ((tcpAbort_bare m.conn).append (bare_returned _)) hsent
      · cases h
    | connect destIp destPort srcPort ticks =>
      dsimp only [Tcp.step, startCall] at h
      split at h
      · cases h
        exact Bare.small (tcpAbort_bare m.conn) hsent
      · cases h
    | _ => exact absurd rfl hsame

theorem tcpOptions_length (flags : UInt8) : (tcpOptions flags).length ≤ 4 := by
  unfold tcpOptions
  split <;> simp

theorem sendTcpSegment_frame (pktBuf checksumBuf : Mem) (dstMac : Mac) (host : Host) (c : Conn)
    (segment : Sent) : ∃ n m,
    n = 20 + ((tcpOptions segment.flags).length + segment.payload.length) ∧
      sendTcpSegment pktBuf checksumBuf dstMac host c segment = bytesOf
        (store16 m 50 (tcpChecksum checksumBuf host.ourIp c.remoteIp (behind m 34) n))
        (14 + (20 + n)) ∧
      load16 m 50 = 0 ∧ ∀ k < 34,
      m k = buildIpHeader (buildEtherHeader pktBuf dstMac host.ourMac ethertypeIp) 14
        ipProtoTcp host.ourIp c.remoteIp n host.ipId k := by
  unfold sendTcpSegment
  generalize tcpOptions segment.flags = options
  dsimp only [ethHeaderLen, ipHeaderLen, tcpHeaderSize]
  have hn : 20 + options.length + segment.payload.length =
      20 + (options.length + segment.payload.length) := Nat.add_assoc _ _ _
  refine ⟨20 + options.length + segment.payload.length, _, hn, congrArg (bytesOf _) (by omega),
    load16_eq_zero fun k hk => ?_, fun k hk => ?_⟩
  · rw [blit_of_lt (by omega), blit_of_lt (by omega), store16, blit_of_lt (by omega)]
    exact store16_zero (by omega) (by omega)
  · unfold store16 storeBe16 storeBe32 store8
    simp (disch := omega) only [blit_of_lt]

theorem sendTcpSegment_verifies (pktBuf checksumBuf : Mem) (dstMac : Mac) (c : Conn)
    {segment : Sent} (hsmall : segment.payload.length ≤ chunkSize)
    (hd : Carries (sendTcpSegment pktBuf checksumBuf dstMac host c segment) d) :
    Verifies ipProtoTcp d := by
  have hoptions := tcpOptions_length segment.flags
  obtain ⟨n, m, hn, hframe, hzero, hm⟩ :=
    sendTcpSegment_frame pktBuf checksumBuf dstMac host c segment
  rw [hframe] at hd
  unfold chunkSize at hsmall
  have hbytes := carries_bytesOf hd
  have hheaded : Headed d ipProtoTcp host.ourIp c.remoteIp n := by
    refine (headed_buildIpHeader _ host.ipId (by omega)).kept hm fun k hk => ?_
    rw [hbytes k (by omega)]
    exact blit_of_lt (by omega)
  exact hheaded.verifies_tcp (tcp_verifies checksumBuf hheaded (by omega) (by omega) hzero hbytes)

section Echo

variable {data : Mem} {len : Nat} {srcMac : Mac} {ticks : UInt32}

theorem dispatch_frame (host : Host) (data : Mem) (ipHdr udpLen : Nat) :
    Output.frame frame ∉ dispatch host data ipHdr udpLen := by
  unfold dispatch
  split
  · nofun
  · intro h
    cases mem_singleton.mp h

theorem handleUdp_frame (host : Host) (data : Mem) (len ipHdr : Nat) :
    Output.frame frame ∉ (handleUdp host data len ipHdr).2 := by
  unfold handleUdp
  dsimp only
  split
  · nofun
  · split
    · nofun
    · split
      · exact dispatch_frame _ _ _ _
      · split
        · nofun
        · exact dispatch_frame _ _ _ _

theorem ipHdrLen_cases (h : checksum data (ipHdrLen data) = 0) :
    ∃ words, ipHdrLen data = words * 4 ∧ 0 < words ∧ words < 16 := by
  refine ⟨(data 0).toNat % 16, rfl, Nat.pos_of_ne_zero fun hzero => ?_, Nat.mod_lt _ (by decide)⟩
  have hlen : ipHdrLen data = 0 := by
    unfold ipHdrLen
    rw [hzero]
  rw [hlen, checksum, show sumBytes data 0 = 0 from rfl, fold_zero] at h
  exact absurd h (by decide)

theorem handleIcmp_frame (h : Output.frame frame ∈ (handleIcmp host data len srcMac).2) :
    ipHdrLen data + 8 ≤ ipTotalLen data ∧ 14 + ipTotalLen data ≤ 2048 ∧
      frame = bytesOf (echoReply host data srcMac (ipHdrLen data)) (14 + ipTotalLen data) := by
  unfold handleIcmp at h
  dsimp only at h
  split at h
  · cases h
  · split at h
    · split at h
      · cases h
      · rename_i hlong _ hfit
        cases mem_singleton.mp h
        unfold icmpHeaderLen at hlong
        unfold ethHeaderLen packetBufSize at hfit
        exact ⟨by omega, by omega, rfl⟩
    · split at h
      · cases h
      · cases h

theorem handleIp_frame (h : Output.frame frame ∈ (handleIp host data len srcMac ticks).2) :
    checksum data (ipHdrLen data) = 0 ∧ ∃ host',
    Output.frame frame ∈ (handleIcmp host' data len srcMac).2 := by
  unfold handleIp at h
  dsimp only at h
  split at h
  · cases h
  · split at h
    · cases h
    · split at h
      · cases h
      · rename_i hsum
        refine ⟨not_not.mp hsum, ?_⟩
        split at h
        · cases h
        · split at h
          · exact ⟨_, h⟩
          · split at h
            · exact absurd h (handleUdp_frame _ _ _ _)
            · split at h
              · obtain ⟨segment, -, heq⟩ := mem_map.mp h
                cases heq
              · cases h

theorem echoReply_parts (host : Host) (data : Mem) (srcMac : Mac) (h : Nat) : ∃ w y,
    load16 w 24 = 0 ∧ (∀ k < 10, k < ipTotalLen data → w (14 + k) = data k) ∧
      (∀ k < 14 + h, y k = store16 w 24 (checksum (behind w 14) h) k) ∧ load16 y (14 + h + 2) = 0 ∧
      echoReply host data srcMac h =
      store16 y (14 + h + 2) (checksum (behind y (14 + h)) (ipTotalLen data - h)) := by
  unfold echoReply
  dsimp only [ethHeaderLen]
  refine ⟨store16 (store32 (store32 (blit (buildEtherHeader host.replyBuf srcMac host.ourMac
    ethertypeIp) 14 (ipTotalLen data) data) 30 (ipSrc data).toNat) 26 host.ourIp.toNat) 24 0, _,
    load16_store16_zero _ _, fun k hk htot => ?_, fun k hk => ?_, load16_store16_zero _ _, rfl⟩
  · unfold store32 store16
    simp (disch := omega) only [blit_of_lt]
    exact blit_add htot
  · rw [store16, blit_of_lt (by omega), store8, blit_of_lt (by omega), store8, blit_of_lt hk]

theorem echo_verifies (h : Output.frame frame ∈ (handleIp host data len srcMac ticks).2)
    (hd : Carries frame d) : Verifies ipProtoIcmp d := by
  obtain ⟨hsum, host', hicmp⟩ := handleIp_frame h
  obtain ⟨hlow, hhigh, rfl⟩ := handleIcmp_frame hicmp
  obtain ⟨words, hwords, hpos, hlt⟩ := ipHdrLen_cases hsum
  obtain ⟨w, y, hzero, hw, hy, hzero', hreply⟩ := echoReply_parts host' data srcMac (ipHdrLen data)
  rw [hreply] at hd
  have hbytes := carries_bytesOf hd
  have hheader : ∀ k < ipHdrLen data,
      d k = store16 w 24 (checksum (behind w 14) (ipHdrLen data)) (14 + k) := by
    intro k hk
    rw [hbytes k (by omega), ← hy _ (by omega)]
    exact blit_of_lt (by omega)
  have hkept : ∀ k < ipHdrLen data, k < 10 → d k = data k := by
    intro k hk hk'
    rw [hheader k hk, ← hw k hk' (by omega)]
    exact blit_of_lt (by omega)
  have hhdr : ipHdrLen d = ipHdrLen data := by
    unfold ipHdrLen
    rw [hkept 0 (by omega) (by decide)]
  have htot : ipTotalLen d = ipTotalLen data := be16_congr fun k _ hk =>
    hkept k (by omega) (by omega)
  refine
    { header := ?_
      icmp := fun _ => ?_
      udp := fun hproto => absurd hproto (by decide)
      tcp := fun hproto => absurd hproto (by decide) }
  · rw [hhdr]
    by_cases hshort : ipHdrLen data < 12
    · rw [← hsum]
      exact checksum_congr fun k hk => hkept k hk (by omega)
    · rw [← checksum_fills (m := behind w 14) (f := 10) (show ipHdrLen data ≤ 65535 by omega)
        (by decide) (by omega) hzero, ← behind_store16]
      exact checksum_congr hheader
  · unfold IcmpVerifies
    rw [hhdr, htot, ← checksum_fills (m := behind y (14 + ipHdrLen data)) (f := 2)
      (show ipTotalLen data - ipHdrLen data ≤ 65535 by omega) (by decide) (by omega) hzero',
      ← behind_store16]
    refine checksum_congr fun k hk => ?_
    have hbyte := hbytes (ipHdrLen data + k) (by omega)
    rw [← Nat.add_assoc] at hbyte
    exact hbyte

end Echo

theorem Built.verifies {len : Nat} (hlen : len ≤ 1492) (h : Built len proto frame)
    (hd : Carries frame d) : Verifies proto d := by
  cases h with
  | udp h => exact netSendUdp_verifies hlen h hd
  | ping h => exact netPing_verifies h hd
  | echo h => exact echo_verifies h hd
  | dns hquery h =>
    have hlength := dnsQuery_length hquery
    exact netSendUdp_verifies (by omega) h hd
  | dhcp msgType requestedIp serverId xid host =>
    exact dhcpSendMsg_verifies msgType requestedIp serverId xid hd
  | tcp h hsent pktBuf checksumBuf dstMac host c =>
    exact sendTcpSegment_verifies pktBuf checksumBuf dstMac c (step_small h hsent) hd

theorem checksumLaw_of_le {len : Nat} (hlen : len ≤ 1492) : ChecksumLaw len :=
  { fills := fun m _ f hn hf hfit => checksum_fills hn hf hfit (load16_store16_zero m f)
    exact := fun _ _ hn => sumBytes_eq hn
    verifies := fun _ _ _ h hd => h.verifies hlen hd }

end Builders

end JexOs.Net
