import JexOs.Proof.TcpReceive

/-!
# The stream that is received

The bytes handed out by `tcp_receive`, with those still in the buffer behind them, against the stream
the peer sends and the number that is acknowledged to it.
-/

namespace JexOs.Tcp

open ByteMem List Option

/-- What the peer sends: its initial sequence number, and the bytes behind it. -/
structure Peer where
  isn : UInt32
  stream : List UInt8

/-- What a run has given: the bytes handed out, and whether a `FIN` has been taken. -/
structure Seen where
  taken : List UInt8
  fin : Bool

def Seen.next (m : Machine) (e : Event) (out : List Output) (g : Seen) : Seen :=
  { taken := g.taken ++ receivedBytes out
    fin := g.fin ||
      match e with
      | .arrive _ seg => decide (Handled m.conn seg) && seg.has tcpFin
      | _ => false }

def Seen.bytes (g : Seen) (c : Conn) : List UInt8 := g.taken ++ c.rxBuf

/-- The segment carries bytes of the stream at its sequence position, and a `FIN` at its end. -/
def Carries (peer : Peer) (received : Nat) (seg : Segment) : Prop :=
  ∃ position, seg.seq = peer.isn + 1 + UInt32.ofNat position ∧
    position + seg.payloadLen.toNat ≤ peer.stream.length ∧
    (∀ k < seg.payloadLen.toNat, seg.payload k = peer.stream.getD (position + k) 0) ∧
    (seg.has tcpFin = true → position + seg.payloadLen.toNat = peer.stream.length) ∧
    received < position + 2 ^ 31 ∧ position + seg.payloadLen.toNat < received + 2 ^ 31

/-- The step belongs to the one connection, and what it brings of data comes from the peer. -/
def FromPeer (peer : Peer) (m : Machine) (g : Seen) : Event → Prop
  | .arrive _ seg => seg.payloadLen > 0 ∨ seg.has tcpFin = true →
      Carries peer (g.bytes m.conn).length seg
  | .connect _ _ _ _ | .listen _ => False
  | _ => True

/-- The prefix of the stream that has been received is as long as the number acknowledged says. -/
structure Delivered (peer : Peer) (m : Machine) (g : Seen) : Prop where
  bytes : g.bytes m.conn <+: peer.stream
  acked : m.conn.myAck = peer.isn + 1 + UInt32.ofNat (g.bytes m.conn).length + if g.fin then 1 else 0

/-- Data that comes in order has room in the buffer, and a `FIN` is taken behind all data only. -/
def Roomy (m : Machine) (_ : Seen) : Event → Prop
  | .arrive _ seg => Handled m.conn seg →
      (InOrder m.conn seg → m.conn.rxBuf.length + seg.payloadLen.toNat ≤ tcpRxBufSize) ∧
      (seg.has tcpFin = true →
        (seg.seq = m.conn.myAck ∧
          (seg.payloadLen = 0 ∨ seg.has tcpPsh = true ∨ seg.has tcpAck = true)) ∨
        seg.seq + seg.payloadLen = m.conn.myAck ∨ seg.seq + seg.payloadLen + 1 = m.conn.myAck)
  | _ => True

structure Fresh (peer : Peer) (m : Machine) : Prop where
  state : m.conn.state = .established
  empty : m.conn.rxBuf = []
  acked : m.conn.myAck = peer.isn + 1

/-- Sequence numbers tell positions apart that are less than their range away from each other. -/
theorem position_eq {isn : UInt32} {a b : Nat} (h : isn + UInt32.ofNat a = isn + UInt32.ofNat b)
    (ha : a < b + 2 ^ 32) (hb : b < a + 2 ^ 32) : a = b := by
  have hnat := congrArg UInt32.toNat ((UInt32.add_right_inj isn).mp h)
  rw [UInt32.toNat_ofNat', UInt32.toNat_ofNat'] at hnat
  omega

theorem copyLen_of_room {rxLen : Nat} {payloadLen : UInt32} (h : rxLen + payloadLen.toNat ≤ tcpRxBufSize) :
    copyLen (UInt32.ofNat rxLen) payloadLen = payloadLen := by
  have hsize : (UInt32.ofNat tcpRxBufSize).toNat = 4096 := rfl
  have hbound : rxLen + payloadLen.toNat ≤ 4096 := h
  refine if_neg ?_
  have hrx : (UInt32.ofNat rxLen).toNat = rxLen % 2 ^ 32 := UInt32.toNat_ofNat'
  rw [gt_iff_lt, UInt32.lt_iff_toNat_lt, UInt32.lt_iff_toNat_lt, UInt32.toNat_add, hsize, hrx]
  omega

theorem prefix_append {l s : List UInt8} {f : Mem} {n : Nat} (h : l <+: s)
    (hlength : l.length + n ≤ s.length) (hf : ∀ k < n, f k = s.getD (l.length + k) 0) :
    l ++ bytesOf f n <+: s := by
  have htake : l = s.take l.length := prefix_iff_eq_take.mp h
  have hnext : bytesOf f n = (s.drop l.length).take n := by
    refine ext_getElem ?_ fun k hk hk' => ?_
    · simp only [bytesOf, length_map, length_range, length_take, length_drop]
      omega
    · have hkn : k < n := by simpa [bytesOf] using hk
      simp only [bytesOf, getElem_map, getElem_range, getElem_take, getElem_drop]
      rw [hf k hkn, getD_eq_getElem _ _ (by omega)]
  have hall : l ++ bytesOf f n = s.take (l.length + n) := by
    rw [take_add, ← htake, hnext]
  rw [hall]
  exact take_prefix _ _

structure Streaming (peer : Peer) (m : Machine) (g : Seen) : Prop where
  delivered : Delivered peer m g
  room : m.conn.rxBuf.length ≤ tcpRxBufSize
  complete : g.fin = true → (g.bytes m.conn).length = peer.stream.length
  opened : m.conn.state ≠ .listen ∧ m.conn.state ≠ .synSent ∧ m.conn.state ≠ .synRcvd

section Steps

variable {peer : Peer} {m m' : Machine} {g : Seen}

theorem Delivered.length_le (h : Delivered peer m g) :
    (g.bytes m.conn).length ≤ peer.stream.length := h.bytes.length_le

theorem Delivered.acked_position (h : Delivered peer m g) :
    m.conn.myAck = peer.isn + 1 + UInt32.ofNat ((g.bytes m.conn).length + g.fin.toNat) := by
  rw [h.acked, UInt32.ofNat_add, ← UInt32.add_assoc]
  cases g.fin <;> rfl

variable (h : Streaming peer m g)

include h

theorem Streaming.of_same {g' : Seen} (hrx : m'.conn.rxBuf = m.conn.rxBuf)
    (hack : m'.conn.myAck = m.conn.myAck)
    (hstate : m'.conn.state = m.conn.state ∨ Ending m'.conn.state ∨ m'.conn.state = .finWait1)
    (htaken : g'.taken = g.taken) (hfin : g'.fin = g.fin) : Streaming peer m' g' := by
  have hbytes : g'.bytes m'.conn = g.bytes m.conn := by
    unfold Seen.bytes
    rw [htaken, hrx]
  exact
    { delivered :=
        { bytes := by
            rw [hbytes]
            exact h.delivered.bytes
          acked := by
            rw [hbytes, hack, hfin]
            exact h.delivered.acked }
      room := by
        rw [hrx]
        exact h.room
      complete := fun hfin' => by
        rw [hbytes]
        exact h.complete (hfin ▸ hfin')
      opened := by
        rcases hstate with hstate | hstate | hstate
        · rw [hstate]
          exact h.opened
        · refine ⟨?_, ?_, ?_⟩ <;> intro h' <;> rw [h'] at hstate <;> revert hstate <;> decide
        · rw [hstate]
          decide }

theorem Streaming.inOrder {seg : Segment} (hcarries : Carries peer (g.bytes m.conn).length seg)
    (horder : InOrder m.conn seg) (hroom : m.conn.rxBuf.length + seg.payloadLen.toNat ≤ tcpRxBufSize) :
    g.fin = false ∧ (onData seg m.conn).1.rxBuf = m.conn.rxBuf ++ bytesOf seg.payload seg.payloadLen.toNat ∧
      g.taken ++ (onData seg m.conn).1.rxBuf <+: peer.stream ∧
      (onData seg m.conn).1.myAck = seg.seq + seg.payloadLen ∧
      seg.seq = peer.isn + 1 + UInt32.ofNat (g.bytes m.conn).length ∧ (seg.has tcpFin = true →
        (g.bytes m.conn).length + seg.payloadLen.toNat = peer.stream.length) := by
  obtain ⟨position, hseq, hlength, hbytes, hend, hlow, hhigh⟩ := hcarries
  have hfin := Bool.toNat_le g.fin
  have hposition : position = (g.bytes m.conn).length + g.fin.toNat := by
    have hnumber : peer.isn + 1 + UInt32.ofNat position =
        peer.isn + 1 + UInt32.ofNat ((g.bytes m.conn).length + g.fin.toNat) := by
      rw [← hseq, ← h.delivered.acked_position]
      exact horder.2.2
    exact position_eq hnumber (by omega) (by omega)
  have hnofin : g.fin = false := by
    by_contra hfin'
    have htrue : g.fin = true := by simpa using hfin'
    have := h.complete htrue
    rw [htrue] at hposition
    simp only [Bool.toNat_true] at hposition
    omega
  rw [hnofin, Bool.toNat_false, Nat.add_zero] at hposition
  have hrx : (onData seg m.conn).1.rxBuf =
      m.conn.rxBuf ++ bytesOf seg.payload seg.payloadLen.toNat := by
    rw [onData_of_inOrder horder]
    have htake : m.conn.rxBuf.take tcpRxBufSize = m.conn.rxBuf := take_of_length_le h.room
    rw [htake, copyLen_of_room hroom]
  refine ⟨hnofin, hrx, ?_, ?_, hposition ▸ hseq, hposition ▸ hend⟩
  · rw [hrx, ← append_assoc]
    refine prefix_append h.delivered.bytes ?_ fun k hk => ?_
    · exact hposition ▸ hlength
    · rw [hbytes k hk, hposition]
      rfl
  · rw [onData_of_inOrder horder, horder.2.2]

theorem Streaming.atFin {seg : Segment} (hcarries : Carries peer (g.bytes m.conn).length seg)
    (hflag : seg.has tcpFin = true) (horder : ¬ InOrder m.conn seg) (hfin : (seg.seq = m.conn.myAck ∧
        (seg.payloadLen = 0 ∨ seg.has tcpPsh = true ∨ seg.has tcpAck = true)) ∨
      seg.seq + seg.payloadLen = m.conn.myAck ∨ seg.seq + seg.payloadLen + 1 = m.conn.myAck) :
    (g.bytes m.conn).length = peer.stream.length ∧
      seg.seq + seg.payloadLen = peer.isn + 1 + UInt32.ofNat (g.bytes m.conn).length := by
  obtain ⟨position, hseq, hlength, -, hend, hlow, hhigh⟩ := hcarries
  have hend := hend hflag
  have hle := h.delivered.length_le
  have hfinLe := Bool.toNat_le g.fin
  have hcomplete : g.fin.toNat = 1 → (g.bytes m.conn).length = peer.stream.length :=
    fun hone => h.complete (by cases hg : g.fin <;> simp_all)
  -- the number behind the data of the segment
  have hbehind : seg.seq + seg.payloadLen = peer.isn + 1 + UInt32.ofNat peer.stream.length := by
    rw [← hend, hseq, UInt32.ofNat_add, UInt32.ofNat_toNat, UInt32.add_assoc, UInt32.add_assoc]
  have hall : (g.bytes m.conn).length = peer.stream.length := by
    rcases hfin with ⟨hnext, hflags⟩ | hnext | hnext
    · have hzero : seg.payloadLen = 0 := by
        by_contra hne
        have hpos : seg.payloadLen > 0 := UInt32.pos_iff_ne_zero.mpr hne
        exact horder ⟨hpos, hflags.resolve_left hne, hnext⟩
      rw [hzero, UInt32.add_zero, hnext, h.delivered.acked_position] at hbehind
      have := position_eq hbehind (by omega) (by omega)
      omega
    · rw [hnext, h.delivered.acked_position] at hbehind
      have := position_eq hbehind (by omega) (by omega)
      omega
    · have hone : peer.isn + 1 + UInt32.ofNat (peer.stream.length + 1) =
          peer.isn + 1 + UInt32.ofNat ((g.bytes m.conn).length + g.fin.toNat) := by
        rw [← h.delivered.acked_position, ← hnext, hbehind, UInt32.ofNat_add, UInt32.add_assoc,
          UInt32.add_assoc, UInt32.add_assoc]
        rfl
      have := position_eq hone (by omega) (by omega)
      omega
  exact ⟨hall, hall ▸ hbehind⟩

theorem Streaming.arrive {ticks : UInt32} {seg : Segment} {out : List Output}
    (hpeer : FromPeer peer m g (.arrive ticks seg))
    (hroomy : Roomy m g (.arrive ticks seg)) (hout : receivedBytes out = []) :
    Streaming peer { m with conn := (handleSegment ticks seg m.conn).1 }
      (Seen.next m (.arrive ticks seg) out g) := by
  have htaken : (Seen.next m (.arrive ticks seg) out g).taken = g.taken := by
    show g.taken ++ receivedBytes out = g.taken
    rw [hout, append_nil]
  by_cases hhandled : Handled m.conn seg
  · obtain ⟨hfits, hbehind⟩ := hroomy hhandled
    have hfin : (Seen.next m (.arrive ticks seg) out g).fin = (g.fin || seg.has tcpFin) := by
      show (g.fin || (decide (Handled m.conn seg) && seg.has tcpFin)) = (g.fin || seg.has tcpFin)
      rw [decide_eq_true hhandled, Bool.true_and]
    rw [handleSegment_of_handled ticks hhandled]
    have hreceived := onSegment_received seg m.conn
    have hopened : (onSegment seg m.conn).1.state ≠ .listen ∧
        (onSegment seg m.conn).1.state ≠ .synSent ∧ (onSegment seg m.conn).1.state ≠ .synRcvd := by
      rcases hreceived.state with hstate | hstate
      · rw [hstate]
        exact h.opened
      · refine ⟨?_, ?_, ?_⟩ <;> intro h' <;> rw [h'] at hstate <;> revert hstate <;> decide
    by_cases horder : InOrder m.conn seg
    · -- the data is stored
      obtain ⟨hnofin, hrx, hleading, hack, hseq, hend⟩ :=
        h.inOrder (hpeer (.inl horder.1)) horder (hfits horder)
      have hlength : (g.taken ++ (onData seg m.conn).1.rxBuf).length =
          (g.bytes m.conn).length + seg.payloadLen.toNat := by
        rw [hrx]
        simp [Seen.bytes, bytesOf, Nat.add_assoc]
      have hbytes : (Seen.next m (.arrive ticks seg) out g).bytes (onSegment seg m.conn).1 =
          g.taken ++ (onData seg m.conn).1.rxBuf := by
        unfold Seen.bytes
        rw [htaken, hreceived.rxBuf]
      have hnumber : seg.seq + seg.payloadLen =
          peer.isn + 1 + UInt32.ofNat ((g.bytes m.conn).length + seg.payloadLen.toNat) := by
        rw [hseq, UInt32.ofNat_add, UInt32.ofNat_toNat, UInt32.add_assoc]
      exact
        { delivered :=
            { bytes := by
                rw [hbytes]
                exact hleading
              acked := by
                rw [hbytes, hlength, ← hnumber, hfin, hnofin, Bool.false_or, hreceived.myAck, hack]
                split
                · rfl
                · exact (UInt32.add_zero _).symm }
          room := by
            rw [hreceived.rxBuf, hrx]
            simpa [bytesOf] using hfits horder
          complete := by
            rw [hfin, hnofin, Bool.false_or, hbytes, hlength]
            exact hend
          opened := hopened }
    · have hrx : (onSegment seg m.conn).1.rxBuf = m.conn.rxBuf := by
        rw [hreceived.rxBuf, onData_of_not_inOrder horder]
      have hstate : (onSegment seg m.conn).1.state = m.conn.state ∨
          Ending (onSegment seg m.conn).1.state ∨ (onSegment seg m.conn).1.state = .finWait1 :=
        hreceived.state.imp_right .inl
      by_cases hflag : seg.has tcpFin = true
      · obtain ⟨hall, hnumber⟩ := h.atFin (hpeer (.inr hflag)) hflag horder (hbehind hflag)
        have hbytes : (Seen.next m (.arrive ticks seg) out g).bytes (onSegment seg m.conn).1 =
            g.bytes m.conn := by
          unfold Seen.bytes
          rw [htaken, hrx]
        exact
          { delivered :=
              { bytes := by
                  rw [hbytes]
                  exact h.delivered.bytes
                acked := by
                  rw [hbytes, ← hnumber, hfin, hflag, Bool.or_true, hreceived.myAck, if_pos hflag]
                  rfl }
            room := by
              rw [hrx]
              exact h.room
            complete := fun _ => by
              rw [hbytes]
              exact hall
            opened := hopened }
      · refine h.of_same hrx ?_ hstate htaken ?_
        · rw [hreceived.myAck, if_neg hflag, onData_of_not_inOrder horder]
        · rw [hfin, Bool.eq_false_iff.mpr hflag, Bool.or_false]
  · have hfin : (Seen.next m (.arrive ticks seg) out g).fin = g.fin := by
      show (g.fin || (decide (Handled m.conn seg) && seg.has tcpFin)) = g.fin
      rw [decide_eq_false hhandled, Bool.false_and, Bool.or_false]
    have hsame : (handleSegment ticks seg m.conn).1 = m.conn := by
      rcases handleSegment_of_not_handled ticks hhandled with heq | ⟨hlisten, -⟩ | ⟨hrcvd, -⟩ | ⟨-, -, heq⟩
      · exact heq
      · exact absurd hlisten h.opened.1
      · exact absurd hrcvd h.opened.2.2
      · rw [heq, onSynAck, if_neg fun h' => h.opened.2.1 h'.1]
    rw [hsame]
    exact h.of_same rfl rfl (.inl rfl) htaken hfin

theorem Streaming.step {e : Event} {out : List Output} (hpeer : FromPeer peer m g e) (hroomy : Roomy m g e)
    (hstep : step m e = some (m', out)) : Streaming peer m' (Seen.next m e out g) := by
  rcases step_cases hstep with ⟨ticks, seg, rfl, rfl, rfl⟩ | ⟨n, rfl, rfl, rfl⟩ | ⟨port, rfl, -⟩ |
    ⟨ip, port, src, ticks, rfl, -⟩ | ⟨haside, hnot⟩
  · exact h.arrive hpeer hroomy (receivedBytes_sent _)
  · -- what is handed out moves from the buffer to the bytes taken
    have hbytes : (Seen.next m (.receive n) [.received (m.conn.rxBuf.take n)] g).bytes
        { m.conn with rxBuf := m.conn.rxBuf.drop n } = g.bytes m.conn := by
      simp [Seen.bytes, Seen.next, receivedBytes]
    have hfin : (Seen.next m (.receive n) [.received (m.conn.rxBuf.take n)] g).fin = g.fin := Bool.or_false _
    exact
      { delivered :=
          { bytes := by
              rw [hbytes]
              exact h.delivered.bytes
            acked := by
              rw [hbytes, hfin]
              exact h.delivered.acked }
        room := by
          have := h.room
          simp only [length_drop]
          omega
        complete := fun hfin' => by
          rw [hbytes]
          exact h.complete (hfin ▸ hfin')
        opened := h.opened }
  · exact hpeer.elim
  · exact hpeer.elim
  · refine h.of_same (by rw [haside.eq]) (by rw [haside.eq]) ?_ ?_ ?_
    · rcases haside.state with hstate | hstate | hstate
      · exact .inl hstate
      · rw [hstate]
        exact .inr (.inl ending_closed)
      · exact .inr (.inr hstate)
    · show g.taken ++ receivedBytes out = g.taken
      rw [haside.out, append_nil]
    · cases e with
      | arrive ticks seg => exact absurd rfl (hnot ticks seg)
      | _ => exact Bool.or_false _

end Steps

section Trial

def trialMachine : Machine :=
  { conn :=
      { initial with
        state := .established
        remoteIp := 1
        remotePort := 80
        localPort := 40000
        myAck := 1 }
    call := .idle }

end Trial

end JexOs.Tcp
