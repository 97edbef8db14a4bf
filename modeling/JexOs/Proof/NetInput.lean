import JexOs.Proof.NetConfined
import JexOs.Proof.NetVerify

/-!
# What is handed to the transport handlers

`handle_ip` never looks at the version, at the least length of a header, or at the total length.
-/

namespace JexOs.Net

open ByteMem Tcp List

inductive Transport where
  | icmp
  | udp
  | tcp
deriving DecidableEq, Repr

def ipPasses (host : Host) (data : Mem) (len : Nat) : Option Transport :=
  if len < ipHeaderLen then none
  else if len < ipHdrLen data then none
  else if checksum data (ipHdrLen data) ≠ 0 then none
  else if ipDest data ≠ host.ourIp then none
  else if ipProtocol data = ipProtoIcmp then some .icmp
  else if ipProtocol data = ipProtoUdp then some .udp
  else if ipProtocol data = ipProtoTcp then some .tcp
  else none

section Handlers

variable (host : Host) (data : Mem) (len : Nat) (srcMac : Mac) (ticks : UInt32)

def Transport.handle : Transport → Host × List Output
  | .icmp => handleIcmp host data len srcMac
  | .udp => handleUdp host data len (ipHdrLen data)
  | .tcp =>
    let r := handleTcp ticks data len (ipHdrLen data) host.conn
    ({ host with conn := r.1 }, r.2.map .tcp)

theorem handleIp_eq : (handleIp host data len srcMac ticks).2 =
    (ipPasses host data len).elim [] fun t =>
      (t.handle { host with arpCache := arpAdd host.arpCache (ipSrc data) srcMac } data len
      srcMac ticks).2 := by
  unfold handleIp ipPasses
  dsimp only
  by_cases hlen : len < ipHeaderLen
  · rw [if_pos hlen, if_pos hlen]
    rfl
  rw [if_neg hlen, if_neg hlen]
  by_cases hoptions : len < ipHdrLen data
  · rw [if_pos hoptions, if_pos hoptions]
    rfl
  rw [if_neg hoptions, if_neg hoptions]
  by_cases hsum : checksum data (ipHdrLen data) ≠ 0
  · rw [if_pos hsum, if_pos hsum]
    rfl
  rw [if_neg hsum, if_neg hsum]
  by_cases hdest : ipDest data ≠ host.ourIp
  · rw [if_pos hdest, if_pos hdest]
    rfl
  rw [if_neg hdest, if_neg hdest]
  split
  · rfl
  · split
    · rfl
    · split
      · rfl
      · rfl

end Handlers

section Input

variable {host : Host} {data : Mem} {len : Nat} {srcMac : Mac} {ticks : UInt32} {t : Transport}

/-- The checks that are made, and a protocol that has a handler. -/
structure Checked (host : Host) (data : Mem) (len : Nat) : Prop where
  accepted : Accepted host data len
  protocol : ipProtocol data ∈ [ipProtoIcmp, ipProtoUdp, ipProtoTcp]

theorem ipPasses_of_not_accepted (h : ¬ Accepted host data len) :
    ipPasses host data len = none := by
  unfold ipPasses
  by_cases hlen : len < ipHeaderLen
  · rw [if_pos hlen]
  by_cases hoptions : len < ipHdrLen data
  · rw [if_neg hlen, if_pos hoptions]
  by_cases hsum : checksum data (ipHdrLen data) ≠ 0
  · rw [if_neg hlen, if_neg hoptions, if_pos hsum]
  have hdest : ipDest data ≠ host.ourIp := fun hdest =>
    h ⟨Nat.le_of_not_lt hlen, Nat.le_of_not_lt hoptions, not_not.mp hsum, hdest⟩
  rw [if_neg hlen, if_neg hoptions, if_neg hsum, if_pos hdest]

theorem ipPasses_of_accepted (h : Accepted host data len) : ipPasses host data len =
    if ipProtocol data = ipProtoIcmp then some .icmp
    else if ipProtocol data = ipProtoUdp then some .udp
    else if ipProtocol data = ipProtoTcp then some .tcp
    else none := by
  unfold ipPasses
  rw [if_neg (not_lt.mpr h.header), if_neg (not_lt.mpr h.options),
    if_neg (not_not.mpr h.checksum), if_neg (not_not.mpr h.dest)]

theorem ipPasses_iff : (∃ t, ipPasses host data len = some t) ↔ Checked host data len := by
  constructor
  · rintro ⟨t, ht⟩
    have haccepted : Accepted host data len := by
      by_contra h
      rw [ipPasses_of_not_accepted h] at ht
      cases ht
    refine ⟨haccepted, ?_⟩
    rw [ipPasses_of_accepted haccepted] at ht
    by_contra hother
    obtain ⟨hicmp, hudp, htcp⟩ : ipProtocol data ≠ ipProtoIcmp ∧ ipProtocol data ≠ ipProtoUdp ∧
        ipProtocol data ≠ ipProtoTcp := by simpa using hother
    rw [if_neg hicmp, if_neg hudp, if_neg htcp] at ht
    cases ht
  · rintro ⟨haccepted, hprotocol⟩
    rw [ipPasses_of_accepted haccepted]
    by_cases hicmp : ipProtocol data = ipProtoIcmp
    · exact ⟨.icmp, if_pos hicmp⟩
    by_cases hudp : ipProtocol data = ipProtoUdp
    · exact ⟨.udp, by rw [if_neg hicmp, if_pos hudp]⟩
    · have htcp : ipProtocol data = ipProtoTcp := by
        simp only [mem_cons, not_mem_nil, or_false] at hprotocol
        exact (hprotocol.resolve_left hicmp).resolve_left hudp
      exact ⟨.tcp, by rw [if_neg hicmp, if_neg hudp, if_pos htcp]⟩

def ipVersion (data : Mem) : Nat := (data 0).toNat / 16

/-- The one's complement sum of the words of the header is all ones: they are not all 0, and their sum is
divisible by `2 ^ 16 - 1`. -/
def HeaderVerifies (data : Mem) : Prop :=
  0 < exactSum data (ipHdrLen data) ∧ exactSum data (ipHdrLen data) % 0xFFFF = 0

/-- A header of version 4 with at least its fixed part, in a datagram that was received whole. -/
structure InBounds (data : Mem) (len : Nat) : Prop where
  version : ipVersion data = 4
  least : ipHeaderLen ≤ ipHdrLen data
  header : ipHdrLen data ≤ ipTotalLen data
  total : ipTotalLen data ≤ len

structure ValidDatagram (host : Host) (data : Mem) (len : Nat) : Prop where
  bounds : InBounds data len
  verifies : HeaderVerifies data
  dest : ipDest data = host.ourIp

theorem headerVerifies_iff : HeaderVerifies data ↔ checksum data (ipHdrLen data) = 0 := by
  have hlen : ipHdrLen data ≤ 65535 := by
    unfold ipHdrLen
    omega
  unfold HeaderVerifies checksum
  rw [(sumBytes_eq hlen).1]
  rcases Nat.eq_zero_or_pos (exactSum data (ipHdrLen data)) with hzero | hpos
  · rw [hzero, fold_zero]
    omega
  · rw [fold_of_pos hpos]
    omega

/-- What is handed on is valid, exactly where it also has its version and lengths in order. -/
theorem ipPasses_valid_iff (host : Host) (data : Mem) (len : Nat) :
    (∀ t, ipPasses host data len = some t → ValidDatagram host data len) ↔
      (Checked host data len → InBounds data len) := by
  constructor
  · intro hvalid hchecked
    obtain ⟨t, ht⟩ := ipPasses_iff.mpr hchecked
    exact (hvalid t ht).bounds
  · intro hbounds t ht
    have hchecked := ipPasses_iff.mp ⟨t, ht⟩
    exact
      { bounds := hbounds hchecked
        verifies := headerVerifies_iff.mpr hchecked.accepted.checksum
        dest := hchecked.accepted.dest }

end Input

/-- The echo request whose header claims a byte more than was received is handed on. -/
theorem not_valid_echo : ¬ ∀ host data len t, ipPasses host data len = some t →
    ValidDatagram host data len := by
  intro h
  have hchecked : Checked trialHost trialEcho 28 := ⟨trialEcho_leaks.1, by decide⟩
  obtain ⟨t, ht⟩ := ipPasses_iff.mpr hchecked
  have htotal := (h trialHost trialEcho 28 t ht).bounds.total
  exact absurd htotal (by decide)

end JexOs.Net
