import JexOs.Proof.NetChecksum

/-!
# What is sent by UDP is received

The frame that `net_send_udp` builds, given to `handle_ip` of the host it is sent to.
-/

namespace JexOs.Net

open ByteMem Tcp List Option

section Handlers

variable {entries entries' : List UdpHandlerEntry} {port : UInt16}

def Unique (entries : List UdpHandlerEntry) : Prop :=
  entries.Pairwise fun a b => ∀ port, a.serves port = true → b.serves port = false

variable {entry old : UdpHandlerEntry}

theorem find_serves (hunique : Unique entries) (hmem : entry ∈ entries)
    (hserves : entry.serves port = true) : entries.find? (·.serves port) = some entry := by
  induction entries with
  | nil => cases hmem
  | cons first rest ih =>
    obtain ⟨hfirst, hrest⟩ := pairwise_cons.mp hunique
    rcases mem_cons.mp hmem with rfl | hmem
    · exact find?_cons_of_pos hserves
    · rw [find?_cons_of_neg, ih hrest hmem]
      intro h
      rw [hfirst entry hmem port h] at hserves
      cases hserves

theorem unique_iff : Unique entries ↔ ∀ (i j : Nat)
    (a b : UdpHandlerEntry), entries[i]? = some a → entries[j]? = some b →
    i < j → ∀ port, a.serves port = true → b.serves port = false := by
  unfold Unique
  rw [pairwise_iff_getElem]
  refine ⟨fun h i j a b ha hb hij => ?_, fun h i j hi hj hij => ?_⟩
  · obtain ⟨hi, rfl⟩ := List.getElem?_eq_some_iff.mp ha
    obtain ⟨hj, rfl⟩ := List.getElem?_eq_some_iff.mp hb
    exact h i j hi hj hij
  · exact h i j _ _ (getElem?_eq_getElem hi) (getElem?_eq_getElem hj) hij

theorem Unique.set {i : Nat} (h : Unique entries) (hold : entries[i]? = some old)
    (hentry : ∀ port, entry.serves port = true → old.serves port = true ∨
      ∀ other ∈ entries, other.serves port = false) : Unique (entries.set i entry) := by
  rw [unique_iff] at h ⊢
  have hi : i < entries.length := (List.getElem?_eq_some_iff.mp hold).1
  intro j k a b ha hb hjk port hserves
  rw [getElem?_set] at ha hb
  split at ha
  · cases ha
    rw [if_neg (by omega)] at hb
    rcases hentry port hserves with hserves | hnone
    · exact h i k old b hold hb (by omega) port hserves
    · exact hnone b (mem_of_getElem? hb)
  · split at hb
    · cases hb
      by_contra hboth
      rcases hentry port (by simpa using hboth) with hserves' | hnone
      · rw [h j i a old ha hold (by omega) port hserves] at hserves'
        cases hserves'
      · rw [hnone a (mem_of_getElem? ha)] at hserves
        cases hserves
    · exact h j k a b ha hb hjk port hserves

theorem modify_of_getElem? {i : Nat} {f : UdpHandlerEntry → UdpHandlerEntry}
    (h : entries[i]? = some old) : entries.modify i f = entries.set i (f old) := by
  refine ext_getElem? fun j => ?_
  have hi : i < entries.length := (List.getElem?_eq_some_iff.mp h).1
  rw [getElem?_modify, getElem?_set]
  split
  · rename_i heq
    rw [← heq, h]
    rfl
  · simp

theorem netUdpRegister_unique {handler userdata : UInt32} (h : Unique entries)
    (hregister : netUdpRegister port handler userdata entries = some entries') :
    Unique entries' ∧ entries'.length = entries.length ∧ ∃ entry ∈ entries',
      entry.serves port = true ∧ entry.handler = handler ∧ entry.userdata = userdata := by
  unfold netUdpRegister at hregister
  split at hregister
  · rename_i i hfind
    obtain ⟨hi, hserves, -⟩ := findIdx?_eq_some_iff_getElem.mp hfind
    have hold : entries[i]? = some entries[i] := getElem?_eq_getElem hi
    cases hregister
    rw [modify_of_getElem? hold]
    exact ⟨h.set hold fun port hport => .inl hport, length_set, _, mem_set hi _, hserves, rfl, rfl⟩
  · rename_i hnone
    have hnone := findIdx?_eq_none_iff.mp hnone
    split at hregister
    · rename_i i hfind
      obtain ⟨hi, -, -⟩ := findIdx?_eq_some_iff_getElem.mp hfind
      have hold : entries[i]? = some entries[i] := getElem?_eq_getElem hi
      cases hregister
      refine ⟨h.set hold fun port' hport => .inr ?_, length_set, _, mem_set hi _, ?_, rfl, rfl⟩
      · have heq : port = port' := by simpa [UdpHandlerEntry.serves] using hport
        rwa [← heq]
      · simp [UdpHandlerEntry.serves]
    · cases hregister

theorem netUdpUnregister_unique (h : Unique entries) : Unique (netUdpUnregister port entries) ∧
      (netUdpUnregister port entries).length = entries.length := by
  unfold netUdpUnregister
  split
  · rename_i i hfind
    obtain ⟨hi, -, -⟩ := findIdx?_eq_some_iff_getElem.mp hfind
    have hold : entries[i]? = some entries[i] := getElem?_eq_getElem hi
    rw [modify_of_getElem? hold]
    refine ⟨h.set hold fun port hport => ?_, length_set⟩
    simp [UdpHandlerEntry.serves] at hport
  · exact ⟨h, rfl⟩

end Handlers

section Frame

variable (host : Host) (destMac : Mac) (destIp : UInt32) (destPort srcPort : UInt16) (data : Mem)
  (len : Nat)

def udpFrame : Mem :=
  let p := ethHeaderLen + ipHeaderLen
  let m := buildEtherHeader host.sendBuf destMac host.ourMac ethertypeIp
  let m := buildIpHeader m ethHeaderLen ipProtoUdp host.ourIp destIp (udpHeaderLen + len) host.ipId
  let m := storeBe16 m p srcPort.toNat
  let m := storeBe16 m (p + 2) destPort.toNat
  let m := storeBe16 m (p + 4) (udpHeaderLen + len)
  let m := store16 m (p + 6) 0
  blit m (p + udpHeaderLen) len data

def ipFields : Mem :=
  ipHeaderFields (buildEtherHeader host.sendBuf destMac host.ourMac ethertypeIp) ethHeaderLen
    ipProtoUdp host.ourIp destIp (udpHeaderLen + len) host.ipId

end Frame

theorem load16_behind (m : Mem) (a b : Nat) : load16 (behind m a) b = load16 m (a + b) := rfl

section Fields

variable {host : Host} {destMac : Mac} {destIp : UInt32} {destPort srcPort : UInt16} {data : Mem}
  {len : Nat}

variable {k v a : Nat}

theorem udpFrame_header (hk : k < 34) : udpFrame host destMac destIp destPort srcPort data len k =
      store16 (ipFields host destMac destIp len) 24
      (checksum (behind (ipFields host destMac destIp len) 14) 20) k := by
  show blit (store16 (storeBe16 (storeBe16 (storeBe16 _ 34 _) 36 _) 38 _) 40 0) 42 len data k = _
  unfold store16 storeBe16
  simp (disch := omega) only [blit_of_lt]
  rfl

theorem ipFields_byte (host : Host) (destMac : Mac) (destIp : UInt32) (len : Nat) :
    ipFields host destMac destIp len 14 = 0x45 ∧ ipFields host destMac destIp len 23 = ipProtoUdp ∧
      load16 (ipFields host destMac destIp len) 24 = 0 := by
  simp [ipFields, ipHeaderFields, store8, storeBe16, store16, store32, blit,
    ethHeaderLen, load16, byteOf]

theorem be16_byteOf {m : Mem} (hv : v < 2 ^ 16) (h : ∀ k < 2, m (a + k) = byteOf v (1 - k)) :
    be16 m a = v := by
  have h0 := h 0 (by decide)
  have h1 := h 1 (by decide)
  unfold be16
  rw [Nat.add_zero] at h0
  rw [h0, h1, toNat_byteOf, toNat_byteOf]
  omega

theorem be16_storeBe16 {m : Mem} (hv : v < 2 ^ 16) : be16 (storeBe16 m a v) a = v :=
  be16_byteOf hv fun _ hk => blit_add hk

theorem be16_congr {m m' : Mem} (h : ∀ k, a ≤ k → k < a + 2 → m' k = m k) :
    be16 m' a = be16 m a := by
  unfold be16
  rw [h a (by omega) (by omega), h (a + 1) (by omega) (by omega)]

theorem ipFields_total (host : Host) (destMac : Mac) (destIp : UInt32) (hlen : len ≤ 1492) :
    be16 (ipFields host destMac destIp len) 16 = 28 + len := by
  have hmod : ipHeaderLen + (udpHeaderLen + len) % 2 ^ 16 = 28 + len := by
    unfold ipHeaderLen udpHeaderLen
    omega
  show be16 (store32 (store32 (store16 (store8 (store8 (storeBe16 (storeBe16 (storeBe16 _ 16 _)
    18 _) 20 _) 22 _) 23 _) 24 _) 26 _) 30 _) 16 = 28 + len
  rw [hmod]
  refine be16_byteOf (by omega) fun k hk => ?_
  unfold store32 store16 store8 storeBe16
  simp (disch := omega) only [blit_of_lt]
  rw [blit_add hk]

theorem ipFields_addresses (host : Host) (destMac : Mac) (destIp : UInt32) (len : Nat) :
    load32 (ipFields host destMac destIp len) 26 = host.ourIp.toNat ∧
      load32 (ipFields host destMac destIp len) 30 = destIp.toNat := by
  refine ⟨?_, load32_store32 destIp.toNat_lt⟩
  show load32 (store32 (store32 _ 26 _) 30 _) 26 = _
  rw [load32_store32_of_disjoint (by omega), load32_store32 host.ourIp.toNat_lt]

structure Carried (host : Host) (destMac : Mac) (destIp : UInt32) (destPort srcPort : UInt16)
    (data : Mem) (len csum : Nat) (datagram : Mem) : Prop where
  bytes : ∀ k < 28 + len, datagram k =
    store16 (udpFrame host destMac destIp destPort srcPort data len) 40 csum (14 + k)

variable {csum : Nat} {datagram : Mem}

variable (h : Carried host destMac destIp destPort srcPort data len csum datagram)

include h

theorem Carried.header (hk : k < 20) : datagram k = store16 (ipFields host destMac destIp len) 24
        (checksum (behind (ipFields host destMac destIp len) 14) 20) (14 + k) := by
  rw [h.bytes k (by omega), ← udpFrame_header (by omega)]
  exact blit_of_lt (by omega)

theorem Carried.field (hk : k < 20) (hnot : k < 10 ∨ 12 ≤ k) :
    datagram k = ipFields host destMac destIp len (14 + k) := by
  rw [h.header hk]
  rcases hnot with hnot | hnot
  · exact blit_of_lt (by omega)
  · exact blit_of_ge (by omega)

theorem Carried.checksum : Net.checksum datagram 20 = 0 := by
  obtain ⟨hfirst, -, hzero⟩ := ipFields_byte host destMac destIp len
  have hpos : 0 < sumWords (behind (ipFields host destMac destIp len) 14) 10 := by
    have hword : load16 (behind (ipFields host destMac destIp len) 14) 0 ≤
        sumWords (behind (ipFields host destMac destIp len) 14) 10 :=
      load16_le_sumWords (i := 0) (by decide) (by decide)
    have hbyte : (behind (ipFields host destMac destIp len) 14 0).toNat = 0x45 := by
      show (ipFields host destMac destIp len 14).toNat = 0x45
      rfl
    unfold load16 at hword
    omega
  rw [← checksum_filled (m := behind (ipFields host destMac destIp len) 14) (n := 10) (i := 5)
    (by decide) (by decide) hzero hpos]
  refine checksum_congr fun k hk => ?_
  rw [h.header hk]
  unfold store16 behind blit
  split
  · rw [if_pos (by omega)]
    congr 1
    omega
  · rw [if_neg (by omega)]

theorem Carried.addresses : ipHdrLen datagram = 20 ∧ ipProtocol datagram = ipProtoUdp ∧
    ipSrc datagram = host.ourIp ∧ ipDest datagram = destIp := by
  obtain ⟨hfirst, hprotocol, -⟩ := ipFields_byte host destMac destIp len
  obtain ⟨hsrc, hdest⟩ := ipFields_addresses host destMac destIp len
  refine ⟨?_, ?_, ?_, ?_⟩
  · unfold ipHdrLen
    rw [h.field (k := 0) (by omega) (by omega), hfirst]
    rfl
  · show datagram 9 = _
    rw [h.field (by omega) (by omega), hprotocol]
  · have hload : load32 datagram 12 = host.ourIp.toNat := by
      rw [← hsrc]
      exact load32_congr fun k hlow hhigh => h.field (by omega) (by omega)
    unfold ipSrc
    rw [hload, UInt32.ofNat_toNat]
  · have hload : load32 datagram 16 = destIp.toNat := by
      rw [← hdest]
      exact load32_congr fun k hlow hhigh => h.field (by omega) (by omega)
    unfold ipDest
    rw [hload, UInt32.ofNat_toNat]

theorem Carried.reads (hlen : len ≤ 1492) :
    ipHdrLen datagram = 20 ∧ ipTotalLen datagram = 28 + len ∧
      ipProtocol datagram = ipProtoUdp ∧ ipSrc datagram = host.ourIp ∧
      ipDest datagram = destIp := by
  refine ⟨h.addresses.1, ?_, h.addresses.2⟩
  rw [← ipFields_total host destMac destIp hlen]
  exact be16_congr fun k hlow hhigh => h.field (by omega) (by omega)

omit h in
theorem udpFrame_udp (host : Host) (destMac : Mac) (destIp : UInt32) (destPort srcPort : UInt16)
    (data : Mem) (len : Nat) :
    (∀ k < 2, udpFrame host destMac destIp destPort srcPort data len (34 + k) =
      byteOf srcPort.toNat (1 - k)) ∧
      (∀ k < 2, udpFrame host destMac destIp destPort srcPort data len (36 + k) =
      byteOf destPort.toNat (1 - k)) ∧
      (∀ k < 2, udpFrame host destMac destIp destPort srcPort data len (38 + k) =
      byteOf (8 + len) (1 - k)) ∧
      (∀ k < 2, udpFrame host destMac destIp destPort srcPort data len (40 + k) = 0) ∧
    (∀ k < len, udpFrame host destMac destIp destPort srcPort data len (42 + k) = data k) := by
  have hframe (k : Nat) : udpFrame host destMac destIp destPort srcPort data len k =
      blit (store16 (storeBe16 (storeBe16 (storeBe16 (buildIpHeader (buildEtherHeader host.sendBuf
        destMac host.ourMac ethertypeIp) 14 ipProtoUdp host.ourIp destIp (udpHeaderLen + len)
        host.ipId) 34 srcPort.toNat) 36 destPort.toNat) 38 (8 + len)) 40 0) 42 len data k := rfl
  refine ⟨fun k hk => ?_, fun k hk => ?_, fun k hk => ?_, fun k hk => ?_, fun k hk => ?_⟩ <;>
    rw [hframe] <;> unfold store16 storeBe16
  · simp (disch := omega) only [blit_of_lt]
    rw [blit_add hk]
  · simp (disch := omega) only [blit_of_lt]
    rw [blit_add hk]
  · rw [blit_of_lt (by omega), blit_of_lt (by omega), blit_add hk]
  · rw [blit_of_lt (by omega), blit_add hk]
    unfold byteOf
    rw [Nat.zero_div]
    rfl
  · exact blit_add hk

theorem Carried.outside (hk : k < 28 + len) (hnot : k < 26 ∨ 28 ≤ k) :
    datagram k = udpFrame host destMac destIp destPort srcPort data len (14 + k) := by
  rw [h.bytes k hk]
  rcases hnot with hnot | hnot
  · exact blit_of_lt (by omega)
  · exact blit_of_ge (by omega)

theorem Carried.length : be16 datagram 24 = (8 + len) % 2 ^ 16 := by
  obtain ⟨-, -, hlength, -, -⟩ := udpFrame_udp host destMac destIp destPort srcPort data len
  refine be16_byteOf (Nat.mod_lt _ (by decide)) fun k hk => ?_
  rw [h.outside (by omega) (by omega), ← Nat.add_assoc, hlength k hk]
  refine UInt8.toNat_inj.mp ?_
  rw [toNat_byteOf, toNat_byteOf]
  rcases (by omega : k = 0 ∨ k = 1) with rfl | rfl <;> omega

theorem Carried.sum (hcsum : csum < 2 ^ 16) : load16 datagram 26 = csum := by
  refine load16_byteOf hcsum fun k hk => ?_
  rw [h.bytes _ (by omega), ← Nat.add_assoc]
  exact blit_add hk

theorem Carried.readsUdp (hlen : len ≤ 1492) (hcsum : csum < 2 ^ 16) :
    be16 datagram 22 = destPort.toNat ∧ be16 datagram 24 = 8 + len ∧ load16 datagram 26 = csum ∧
      (∀ k < len, datagram (28 + k) = data k) ∧ ∀ k < 8 + len,
      withoutChecksum (behind datagram 20) k =
        behind (udpFrame host destMac destIp destPort srcPort data len) 34 k := by
  obtain ⟨-, hport, -, hzero, hdata⟩ := udpFrame_udp host destMac destIp destPort srcPort data len
  have hport16 := destPort.toNat_lt
  refine ⟨be16_byteOf hport16 fun k hk => ?_,
    h.length.trans (Nat.mod_eq_of_lt (by omega)), h.sum hcsum,
    fun k hk => ?_, fun k hk => ?_⟩
  · rw [h.outside (by omega) (by omega), ← hport k hk, ← Nat.add_assoc]
  · rw [h.outside (by omega) (by omega), ← hdata k hk, ← Nat.add_assoc]
  · by_cases hfield : 6 ≤ k ∧ k < 6 + 2
    · obtain ⟨j, rfl⟩ := Nat.exists_eq_add_of_le hfield.1
      have hj : j < 2 := by omega
      show blit (behind datagram 20) 6 2 (byteOf 0) (6 + j) = udpFrame _ _ _ _ _ _ _ (34 + (6 + j))
      rw [blit_add hj, ← Nat.add_assoc, hzero j hj]
      unfold byteOf
      rw [Nat.zero_div]
      rfl
    · show blit (behind datagram 20) 6 2 (byteOf 0) k = udpFrame _ _ _ _ _ _ _ (34 + k)
      have hother : blit (behind datagram 20) 6 2 (byteOf 0) k = datagram (20 + k) := if_neg hfield
      rw [hother, h.outside (by omega) (by omega), ← Nat.add_assoc]

end Fields

section Checksum

variable {buf buf' udp udp' : Mem} {srcIp destIp : UInt32} {udpLen : Nat}

theorem udpPseudo_congr {k : Nat} (hk : k < 12) :
    udpPseudo buf' srcIp destIp udpLen k = udpPseudo buf srcIp destIp udpLen k := by
  unfold udpPseudo storeBe16 store8 store32 blit
  split
  · rfl
  · split
    · rfl
    · split
      · rfl
      · split
        · rfl
        · rw [if_pos (by omega), if_pos (by omega)]

theorem udpChecksum_congr (h : ∀ k < udpLen, udp' k = udp k) :
    (udpChecksum buf' srcIp destIp udp' udpLen).1 =
      (udpChecksum buf srcIp destIp udp udpLen).1 := by
  have hsum : checksum (blit (udpPseudo buf' srcIp destIp udpLen) udpPseudoLen udpLen udp')
      (udpPseudoLen + udpLen) =
      checksum (blit (udpPseudo buf srcIp destIp udpLen) udpPseudoLen udpLen udp)
        (udpPseudoLen + udpLen) := by
    refine checksum_congr fun k hk => ?_
    by_cases hlow : k < udpPseudoLen
    · rw [blit_of_lt hlow, blit_of_lt hlow]
      exact udpPseudo_congr hlow
    · rw [blit_of_mem (by omega) hk, blit_of_mem (by omega) hk]
      exact h _ (by omega)
  unfold udpChecksum
  split
  · rfl
  · show (if checksum _ _ = 0 then 0xFFFF else checksum _ _) = if checksum _ _ = 0 then _ else _
    rw [hsum]

theorem udpChecksum_range (buf : Mem) (srcIp destIp : UInt32) (udp : Mem) (hlen : udpLen ≤ 1500) :
    0 < (udpChecksum buf srcIp destIp udp udpLen).1 ∧
    (udpChecksum buf srcIp destIp udp udpLen).1 < 2 ^ 16 := by
  unfold udpChecksum
  rw [if_neg (by omega)]
  dsimp only
  split
  · decide
  · unfold checksum at *
    omega

end Checksum

section Arrival

variable {sender sender' receiver : Host} {destIp : UInt32} {destPort srcPort : UInt16} {data : Mem}
  {len : Nat} {frame : List UInt8} {entry : UdpHandlerEntry} {datagram : Mem}

theorem netSendUdp_carried (hlen : len ≤ 1492)
    (hsend : netSendUdp destIp destPort srcPort data len sender = some (frame, sender'))
    (hdatagram : ∀ k, ethHeaderLen + k < frame.length →
      datagram k = frame.getD (ethHeaderLen + k) 0) :
    frame.length = 42 + len ∧ ∃ destMac csum,
    csum = (udpChecksum sender.checksumBuf sender.ourIp destIp
        (behind (udpFrame sender destMac destIp destPort srcPort data len) 34) (8 + len)).1 ∧
      0 < csum ∧ csum < 2 ^ 16 ∧
      Carried sender destMac destIp destPort srcPort data len csum datagram := by
  obtain ⟨destMac, -, hrest⟩ := bind_eq_some_iff.mp hsend
  obtain ⟨hframe, -⟩ := Prod.mk.inj (some.inj hrest)
  obtain ⟨hpos, hlt⟩ := udpChecksum_range sender.checksumBuf sender.ourIp destIp
    (behind (udpFrame sender destMac destIp destPort srcPort data len) 34)
    (show 8 + len ≤ 1500 by omega)
  generalize hcsum : (udpChecksum sender.checksumBuf sender.ourIp destIp
    (behind (udpFrame sender destMac destIp destPort srcPort data len) 34) (8 + len)).1 = csum
    at hpos hlt
  have hmem : frame = bytesOf (store16 (udpFrame sender destMac destIp destPort srcPort data len) 40
      csum) (42 + len) := by
    have hframe' : bytesOf (store16 (udpFrame sender destMac destIp destPort srcPort data len) 40
        (if (udpChecksum sender.checksumBuf sender.ourIp destIp
          (behind (udpFrame sender destMac destIp destPort srcPort data len) 34) (8 + len)).1 = 0
          then 0xFFFF
          else (udpChecksum sender.checksumBuf sender.ourIp destIp
            (behind (udpFrame sender destMac destIp destPort srcPort data len) 34) (8 + len)).1))
        (34 + (8 + len)) = frame := hframe
    rw [← hframe', hcsum, if_neg (Nat.pos_iff_ne_zero.mp hpos), ← Nat.add_assoc]
  have hlength : frame.length = 42 + len := by
    rw [hmem]
    simp [bytesOf]
  refine ⟨hlength, destMac, csum, hcsum.symm, hpos, hlt, ⟨fun k hk => ?_⟩⟩
  have hin : ethHeaderLen + k < frame.length := by
    unfold ethHeaderLen
    omega
  rw [hdatagram k hin, getD_eq_getElem _ _ hin]
  simp [hmem, bytesOf, ethHeaderLen]

/-- The datagram passes both checksum tests, and its handler is called once, with the payload and the sender. -/
theorem handleIp_netSendUdp (hlen : len ≤ 1492)
    (hsend : netSendUdp destIp destPort srcPort data len sender = some (frame, sender'))
    (hdatagram : ∀ k, ethHeaderLen + k < frame.length →
      datagram k = frame.getD (ethHeaderLen + k) 0)
    (hdest : receiver.ourIp = destIp) (hentry : entry ∈ receiver.handlers.entries)
    (hserves : entry.serves destPort = true) (srcMac : Mac) (ticks : UInt32) :
    checksum datagram (ipHdrLen datagram) = 0 ∧ load16 (behind datagram 20) 6 ≠ 0 ∧
    (udpChecksum receiver.checksumBuf (ipSrc datagram) (ipDest datagram)
      (withoutChecksum (behind datagram 20)) (udpHeaderLen + len)).1 =
      load16 (behind datagram 20) 6 ∧
    (handleIp receiver datagram (frame.length - ethHeaderLen) srcMac ticks).2 =
      [.udp entry.handler entry.userdata sender.ourIp (UInt16.ofNat (load16 datagram 20))
      (bytesOf data len)] := by
  obtain ⟨hlength, destMac, csum, hcsum, hpos, hlt, hcarried⟩ :=
    netSendUdp_carried hlen hsend hdatagram
  obtain ⟨hhdr, htotal, hprotocol, hsrc, hdst⟩ := hcarried.reads hlen
  obtain ⟨hport, hudpLen, hsaved, hpayload, hudp⟩ := hcarried.readsUdp hlen hlt
  have hip : checksum datagram 20 = 0 := hcarried.checksum
  have hsame : (udpChecksum receiver.checksumBuf (ipSrc datagram) (ipDest datagram)
      (withoutChecksum (behind datagram 20)) (8 + len)).1 = csum := by
    rw [hsrc, hdst, hcsum]
    exact udpChecksum_congr hudp
  have hfield : load16 (behind datagram 20) 6 = csum := hsaved
  refine ⟨by rw [hhdr, hip], by omega, by rw [hfield]; exact hsame, ?_⟩
  rw [show frame.length - ethHeaderLen = 28 + len by unfold ethHeaderLen; omega]
  unfold handleIp
  dsimp only
  rw [hhdr, hip, hdst, hprotocol, hdest, if_neg (by unfold ipHeaderLen; omega), if_neg (by omega),
    if_neg (by decide), if_neg (by simp), if_neg (by decide), if_pos rfl]
  unfold handleUdp
  dsimp only
  rw [htotal, hudpLen, hfield]
  rw [if_neg (by unfold udpHeaderLen; omega), if_neg (by unfold udpHeaderLen; omega),
    if_neg (by omega), hsame, if_neg (by simp)]
  unfold dispatch
  rw [hport, UInt16.ofNat_toNat, find_serves receiver.handlers.unique hentry hserves, hsrc]
  have hbytes : bytesOf (behind datagram (20 + udpHeaderLen)) (8 + len - udpHeaderLen) =
      bytesOf data len := by
    have hlen' : 8 + len - udpHeaderLen = len := Nat.add_sub_cancel_left ..
    rw [hlen']
    refine map_congr_left fun k hk => hpayload k (mem_range.mp hk)
  rw [hbytes]

end Arrival

section Trial

def trialEntry : UdpHandlerEntry :=
  { port := 7
    handler := 0x1000
    userdata := 5
    active := true }

def trialHandlers : UdpHandlers :=
  { entries := trialEntry ::
      List.replicate 7 { port := 0, handler := 0, userdata := 0, active := false }
    length_eq := rfl
    unique := by
      rw [pairwise_cons]
      refine ⟨fun b hb port _ => ?_, ?_⟩
      · rw [eq_of_mem_replicate hb]
        rfl
      · exact pairwise_replicate.mpr (.inr fun port h => by cases h) }

def trialHost : Host :=
  { ourIp := 0x0F02000A
    gatewayIp := 0x0202000A
    ourMac := fun _ => 1
    arpCache := [{ ip := 0x0F02000A, mac := fun _ => 1, valid := true }]
    handlers := trialHandlers
    conn := initial
    ipId := 0
    pingResponses := 0
    sendBuf := fun _ => 0
    replyBuf := fun _ => 0
    checksumBuf := fun _ => 0 }

theorem netSendUdp_trial :
    ∃ frame host', netSendUdp 0x0F02000A 7 9 (fun k => UInt8.ofNat k) 3 trialHost =
    some (frame, host') :=
  ⟨_, _, rfl⟩

/-- A host sends three bytes to itself. -/
theorem handleIp_netSendUdp_self : ∃ frame host',
    netSendUdp 0x0F02000A 7 9 (fun k => UInt8.ofNat k) 3 trialHost = some (frame, host') ∧
    (handleIp trialHost (fun k => frame.getD (ethHeaderLen + k) 0) (frame.length - ethHeaderLen)
      (fun _ => 1) 0).2 = [.udp 0x1000 5 0x0F02000A
        (UInt16.ofNat (load16 (fun k => frame.getD (ethHeaderLen + k) 0) 20)) [0, 1, 2]] := by
  obtain ⟨frame, host', hsend⟩ := netSendUdp_trial
  refine ⟨frame, host', hsend, ?_⟩
  have hdest : trialHost.ourIp = 0x0F02000A := rfl
  have hentry : trialEntry ∈ trialHost.handlers.entries := mem_cons_self
  obtain ⟨-, -, -, hout⟩ := handleIp_netSendUdp (by decide) hsend (fun _ _ => rfl) hdest hentry
    (by decide) (fun _ => 1) 0
  exact hout

end Trial

end JexOs.Net
