import JexOs.Proof.TcpReceive

/-!
# Sending

Which steps of a connection move `my_seq` and `peer_acked_to`, when `tcp_send` takes a chunk as sent, and where the
bytes it transmits are placed.
-/

namespace JexOs.Tcp

open List

def Live (state : TcpState) : Prop := state = .synSent ∨ state = .synRcvd ∨ state = .established

instance (state : TcpState) : Decidable (Live state) := inferInstanceAs (Decidable (_ ∨ _))

theorem Ending.not_live {state : TcpState} (h : Ending state) : ¬ Live state := by
  revert h
  cases state <;> decide

/-- A `FIN` is taken by a connection that is there, which answers with its own. -/
def TakesFin (c : Conn) (seg : Segment) : Prop :=
  Handled c seg ∧ seg.has tcpFin = true ∧ c.state = .established

structure Acknowledged (seg : Segment) (c c' : Conn) : Prop where
  mySeq : c'.mySeq = c.mySeq ∨ (TakesFin c seg ∧ c'.mySeq = c.mySeq + 1)
  peerAckedTo : c'.peerAckedTo = c.peerAckedTo ∨
    (accepts c seg = true ∧ seg.has tcpAck = true ∧ c'.peerAckedTo = seg.ack ∧
      ((Handled c seg ∧ seg.ack > c.peerAckedTo) ∨ seg.ack = c.mySeq))
  live : Live c'.state → Live c.state ∧ ¬ TakesFin c seg
  listen : c'.state ≠ .listen

section Segments

variable {c : Conn} {seg : Segment}

theorem onData_sending (seg : Segment) (c : Conn) :
    (onData seg c).1.mySeq = c.mySeq ∧ (onData seg c).1.peerAckedTo = c.peerAckedTo := by
  by_cases h : InOrder c seg
  · rw [onData_of_inOrder h]
    exact ⟨rfl, rfl⟩
  · rw [onData_of_not_inOrder h]
    exact ⟨rfl, rfl⟩

theorem onFin_peerAckedTo (seg : Segment) (c : Conn) : (onFin seg c).1.peerAckedTo = c.peerAckedTo := by
  unfold onFin
  dsimp only
  split
  · rfl
  · split <;> rfl

theorem onFin_mySeq (seg : Segment) (c : Conn) : (onFin seg c).1.mySeq = c.mySeq ∨
      (c.state = .established ∧ (onFin seg c).1.mySeq = c.mySeq + 1) := by
  unfold onFin
  dsimp only
  split
  · exact .inr ⟨‹_›, rfl⟩
  · split <;> exact .inl rfl

theorem onFin_live (seg : Segment)
    (c : Conn) : Live (onFin seg c).1.state → Live c.state ∧ c.state ≠ .established := by
  unfold onFin
  dsimp only
  split
  · exact fun h => absurd h ending_lastAck.not_live
  · split
    · exact fun h => absurd h ending_timeWait.not_live
    · exact fun h => ⟨h, ‹_›⟩

theorem ackState_established (state : TcpState) (covers : Bool) :
    ackState state covers = .established ↔ state = .established := by
  cases state <;> cases covers <;> decide

def onAckData (seg : Segment) (c : Conn) : Conn :=
  (onData seg (if seg.has tcpAck then onAck seg c else c)).1

theorem onSegment_eq (seg : Segment) (c : Conn) : (onSegment seg c).1 =
    let c' := if seg.has tcpFin then (onFin seg (onAckData seg c)).1 else onAckData seg c
    if seg.has tcpRst then { c' with state := .closed } else c' := by
  unfold onSegment onAckData
  cases seg.has tcpFin <;> rfl

theorem onAckData_mySeq (seg : Segment) (c : Conn) : (onAckData seg c).mySeq = c.mySeq := by
  unfold onAckData
  rw [(onData_sending _ _).1]
  split <;> rfl

theorem onAckData_peerAckedTo (seg : Segment) (c : Conn) : (onAckData seg c).peerAckedTo = c.peerAckedTo ∨
      (seg.has tcpAck = true ∧ seg.ack > c.peerAckedTo ∧ (onAckData seg c).peerAckedTo = seg.ack) := by
  unfold onAckData
  rw [(onData_sending _ _).2]
  split
  · by_cases hgreater : seg.ack > c.peerAckedTo
    · exact .inr ⟨‹_›, hgreater, if_pos hgreater⟩
    · exact .inl (if_neg hgreater)
  · exact .inl rfl

theorem onAckData_state (seg : Segment) (c : Conn) :
    ((onAckData seg c).state = c.state ∨ Ending (onAckData seg c).state) ∧
      ((onAckData seg c).state = .established ↔ c.state = .established) := by
  unfold onAckData
  rw [onData_state]
  split
  · exact ⟨ackState_eq _ _, ackState_established _ _⟩
  · exact ⟨.inl rfl, Iff.rfl⟩

theorem onSegment_acknowledged (hhandled : Handled c seg) : Acknowledged seg c (onSegment seg c).1 := by
  have hseq := onAckData_mySeq seg c
  have hacked := onAckData_peerAckedTo seg c
  obtain ⟨hstate, hestablished⟩ := onAckData_state seg c
  have hlive : Live (onAckData seg c).state → Live c.state := by
    intro h
    rwa [← hstate.resolve_right fun hending => hending.not_live h]
  have hlisten : (onSegment seg c).1.state ≠ .listen := by
    rcases (onSegment_received seg c).state with h | h
    · rw [h]
      exact hhandled.2.1
    · intro h'
      rw [h'] at h
      revert h
      decide
  have hpeer : (onSegment seg c).1.peerAckedTo = (onAckData seg c).peerAckedTo := by
    rw [onSegment_eq]
    split <;> split <;> first | exact onFin_peerAckedTo _ _ | rfl
  refine ⟨?_, ?_, ?_, hlisten⟩
  · rw [onSegment_eq, ← hseq]
    by_cases hfin : seg.has tcpFin = true
    · rw [if_pos hfin]
      have hcases : (onFin seg (onAckData seg c)).1.mySeq = (onAckData seg c).mySeq ∨
          (TakesFin c seg ∧ (onFin seg (onAckData seg c)).1.mySeq = (onAckData seg c).mySeq + 1) :=
        (onFin_mySeq seg (onAckData seg c)).imp_right
          fun h => ⟨⟨hhandled, hfin, hestablished.mp h.1⟩, h.2⟩
      split <;> exact hcases
    · rw [if_neg hfin]
      split <;> exact .inl rfl
  · rw [hpeer]
    exact hacked.imp_right fun ⟨hack, hgreater, heq⟩ =>
      ⟨hhandled.1, hack, heq, .inl ⟨hhandled, hgreater⟩⟩
  · rw [onSegment_eq]
    dsimp only
    split
    · exact fun h => absurd h ending_closed.not_live
    · split
      · intro h
        obtain ⟨hbefore, hother⟩ := onFin_live seg _ h
        exact ⟨hlive hbefore, fun htakes => hother (hestablished.mpr htakes.2.2)⟩
      · rename_i hfin
        exact fun h => ⟨hlive h, fun htakes => hfin htakes.2.1⟩

theorem handleSegment_acknowledged (ticks : UInt32) (seg : Segment) (hlisten : c.state ≠ .listen) :
    Acknowledged seg c (handleSegment ticks seg c).1 := by
  by_cases hhandled : Handled c seg
  · rw [handleSegment_of_handled ticks hhandled]
    exact onSegment_acknowledged hhandled
  · have hsame : Acknowledged seg c c :=
      ⟨.inl rfl, .inl rfl, fun h => ⟨h, fun htakes => hhandled htakes.1⟩, hlisten⟩
    have hnot : ¬ TakesFin c seg := fun htakes => hhandled htakes.1
    by_cases haccepts : accepts c seg = true
    · unfold handleSegment
      rw [haccepts, if_neg (by decide), if_neg hlisten]
      split
      · rename_i hrcvd
        unfold onSynRcvd
        split
        · rename_i hack
          exact ⟨.inl rfl, .inr ⟨haccepts, hrcvd.2, rfl, .inr hack⟩,
            fun _ => ⟨.inr (.inl hrcvd.1), hnot⟩, nofun⟩
        · exact hsame
      · rename_i hrcvd
        split
        · unfold onSynAck
          split
          · rename_i hanswer
            exact ⟨.inl hanswer.2, .inl rfl, fun _ => ⟨.inl hanswer.1, hnot⟩, nofun⟩
          · exact hsame
        · exact absurd ⟨haccepts, hlisten, hrcvd, ‹_›⟩ hhandled
    · unfold handleSegment
      rw [Bool.eq_false_iff.mpr haccepts, if_pos (by decide)]
      exact hsame

end Segments

def Call.plain : Call → Bool
  | .opening | .transmitting _ _ _ _ | .waiting _ _ _ _ | .finishing _ _ => false
  | _ => true

def Bare (out : List Output) : Prop := ∀ segment, .sent segment ∈ out → segment.payload = []

inductive Sends (m : Machine) : Event → Machine → List Output → Prop
  | arrive (ticks : UInt32) (seg : Segment) :
      Sends m (.arrive ticks seg) { m with conn := (handleSegment ticks seg m.conn).1 }
        ((handleSegment ticks seg m.conn).2.map .sent)
  | opened (hcall : m.call = .opening) :
      Sends m (.transmitted true)
        { conn := { m.conn with mySeq := m.conn.mySeq + 1 }, call := .connecting 0 }
        [.sent (synSegment m.conn.mySeq)]
  | unopened (hcall : m.call = .opening) :
      Sends m (.transmitted false) { conn := { m.conn with state := .closed }, call := .idle }
        [.returned (-1)]
  | begun (data : List UInt8) (hcall : m.call = .idle) :
      Sends m (.send data) { m with call := (tcpSend data m.conn).1 } (tcpSend data m.conn).2
  | transmitted {data : List UInt8} {sent : Nat} {segSeq ack : UInt32}
      (hcall : m.call = .transmitting data sent segSeq ack) :
      Sends m (.transmitted true)
        { conn := { m.conn with mySeq := m.conn.mySeq + UInt32.ofNat (chunk data sent).length }
          call := .waiting data sent segSeq 0 }
        [.sent (dataSegment segSeq ack (chunk data sent))]
  | unresolved {data : List UInt8} {sent : Nat} {segSeq ack : UInt32}
      (hcall : m.call = .transmitting data sent segSeq ack) :
      Sends m (.transmitted false) { m with call := .idle } [.returned (sentOrError sent)]
  | counted {data : List UInt8} {sent attempts : Nat} {segSeq : UInt32}
      (hcall : m.call = .waiting data sent segSeq attempts)
      (hacked : m.conn.peerAckedTo ≥ segSeq + UInt32.ofNat (chunk data sent).length) :
      Sends m .poll { m with call := (sendNext m.conn data (sent + (chunk data sent).length)).1 }
        (sendNext m.conn data (sent + (chunk data sent).length)).2
  | lost {data : List UInt8} {sent attempts : Nat} {segSeq : UInt32}
      (hcall : m.call = .waiting data sent segSeq attempts)
      (hacked : ¬ m.conn.peerAckedTo ≥ segSeq + UInt32.ofNat (chunk data sent).length)
      (hclosed : m.conn.state = .closed) :
      Sends m .poll { m with call := .idle } [.returned (sentOrError sent)]
  | waits {data : List UInt8} {sent attempts : Nat} {segSeq : UInt32}
      (hcall : m.call = .waiting data sent segSeq attempts) :
      Sends m .poll m []
  | again {data : List UInt8} {sent attempts : Nat} {segSeq : UInt32} (ok : Bool)
      (hcall : m.call = .waiting data sent segSeq attempts) :
      Sends m (.timeout ok) { m with call := .waiting data sent segSeq (attempts + 1) }
        (onWire ok (dataSegment segSeq m.conn.myAck (chunk data sent)))
  | givenUp {data : List UInt8} {sent attempts : Nat} {segSeq : UInt32} (ok : Bool)
      (hcall : m.call = .waiting data sent segSeq attempts) (hlast : ¬ attempts + 1 < tcpMaxRetries) :
      Sends m (.timeout ok) { m with call := .idle }
        (onWire ok (dataSegment segSeq m.conn.myAck (chunk data sent)) ++ [.returned (asInt sent)])
  | closes (hcall : m.call = .idle) :
      Sends m .close
        { conn := { m.conn with state := .finWait1 }
          call := .finishing m.conn.mySeq m.conn.myAck } []
  | finished (ok : Bool) {seq ack : UInt32} (hcall : m.call = .finishing seq ack) :
      Sends m (.transmitted ok)
        { conn := { m.conn with mySeq := m.conn.mySeq + 1 }, call := .closing 0 }
        (onWire ok (finSegment seq ack))
  | aside {e : Event} {call : Call} {state : TcpState} {rxBuf : List UInt8} {out : List Output}
      (hplain : m.call.plain = true) (hplain' : call.plain = true)
      (hstate : state = m.conn.state ∨ state = .closed) (hbare : Bare out)
      (hsend : ∀ data, e ≠ .send data) (harrive : ∀ ticks seg, e ≠ .arrive ticks seg) :
      Sends m e
        { conn := { m.conn with state := state, rxBuf := rxBuf }
          call := call } out

section Steps

variable {m m' : Machine} {out : List Output}

theorem bare_nil : Bare [] := nofun

theorem bare_returned (result : Int) : Bare [.returned result] := by
  intro segment h
  simp at h

theorem Bare.append {out' : List Output} (h : Bare out) (h' : Bare out') : Bare (out ++ out') := by
  intro segment hmem
  rcases mem_append.mp hmem with hmem | hmem
  · exact h segment hmem
  · exact h' segment hmem

theorem bare_onWire (ok : Bool) {segment : Sent} (h : segment.payload = []) : Bare (onWire ok segment) := by
  intro segment' hmem
  cases ok with
  | false => simp [onWire] at hmem
  | true =>
    have heq : segment' = segment := by simpa [onWire] using hmem
    rw [heq, h]

theorem bare_sent {segment : Sent} (h : segment.payload = []) : Bare [.sent segment] :=
  bare_onWire true h

theorem tcpAbort_bare (c : Conn) : Bare (tcpAbort c).2 := by
  unfold tcpAbort
  split
  · exact bare_nil
  · exact bare_sent rfl

theorem tcpAbort_eq (c : Conn) : (tcpAbort c).1 = { c with state := .closed } := by
  unfold tcpAbort
  split
  · rename_i hclosed
    rw [← hclosed]
  · rfl

theorem plain_of_call {call : Call} (hcall : m.call = call) (hplain : call.plain = true) :
    m.call.plain = true := by rw [hcall, hplain]

theorem afterTransmit_sends {ok : Bool} (h : afterTransmit ok m = some (m', out)) :
    Sends m (.transmitted ok) m' out := by
  unfold afterTransmit at h
  split at h
  · cases ok <;> cases h
    · exact .unopened ‹_›
    · exact .opened ‹_›
  · cases ok <;> cases h
    · exact .unresolved ‹_›
    · exact .transmitted ‹_›
  · cases h
    exact .finished ok ‹_›
  · cases h

theorem afterPoll_sends (h : afterPoll m = some (m', out)) : Sends m .poll m' out := by
  unfold afterPoll at h
  dsimp only at h
  split at h
  · rename_i hcall
    split at h
    · cases h
      exact .aside (plain_of_call hcall rfl) rfl (.inl rfl) (bare_returned _) nofun nofun
    · split at h <;> cases h
      · exact .aside (plain_of_call hcall rfl) rfl (.inl rfl) (bare_returned _) nofun nofun
      · exact .aside (plain_of_call hcall rfl) (plain_of_call hcall rfl) (.inl rfl) bare_nil nofun nofun
  · split at h
    · cases h
      exact .counted ‹_› ‹_›
    · split at h <;> cases h
      · exact .lost ‹_› ‹_› ‹_›
      · exact .waits ‹_›
  · rename_i hcall
    split at h
    · cases h
      exact .aside (plain_of_call hcall rfl) rfl (.inr rfl) (bare_returned _) nofun nofun
    · split at h <;> cases h
      · exact .aside (plain_of_call hcall rfl) rfl (.inl rfl) bare_nil nofun nofun
      · exact .aside (plain_of_call hcall rfl) (plain_of_call hcall rfl) (.inl rfl) bare_nil nofun nofun
  · rename_i hcall
    split at h <;> cases h
    · exact .aside (plain_of_call hcall rfl) rfl (.inr rfl) (bare_returned _) nofun nofun
    · exact .aside (plain_of_call hcall rfl) (plain_of_call hcall rfl) (.inl rfl) bare_nil nofun nofun
  · rename_i hcall
    split at h <;> cases h
    · exact .aside (plain_of_call hcall rfl) rfl (.inl rfl) (bare_returned _) nofun nofun
    · exact .aside (plain_of_call hcall rfl) (plain_of_call hcall rfl) (.inl rfl) bare_nil nofun nofun
  · cases h

theorem afterTimeout_sends {ok : Bool} (h : afterTimeout ok m = some (m', out)) :
    Sends m (.timeout ok) m' out := by
  unfold afterTimeout at h
  have habort := tcpAbort_bare m.conn
  dsimp only at h
  rw [tcpAbort_eq] at h
  split at h
  · rename_i hcall
    split at h <;> cases h
    · exact .aside (plain_of_call hcall rfl) rfl (.inl rfl) (bare_onWire _ rfl) nofun nofun
    · exact .aside (plain_of_call hcall rfl) rfl (.inr rfl)
        ((bare_onWire _ rfl).append (bare_returned _)) nofun nofun
  · split at h <;> cases h
    · exact .again ok ‹_›
    · exact .givenUp ok ‹_› ‹_›
  · rename_i hcall
    split at h <;> cases h
    · exact .aside (plain_of_call hcall rfl) rfl (.inl rfl) (bare_onWire _ rfl) nofun nofun
    · exact .aside (plain_of_call hcall rfl) rfl (.inr rfl)
        (((bare_onWire _ rfl).append habort).append (bare_returned _)) nofun nofun
  · rename_i hcall
    cases h
    exact .aside (plain_of_call hcall rfl) rfl (.inr rfl) (habort.append (bare_returned _)) nofun nofun
  · rename_i hcall
    cases h
    exact .aside (plain_of_call hcall rfl) rfl (.inr rfl) (habort.append (bare_returned _)) nofun nofun
  · cases h

def Event.sameConn : Event → Bool
  | .connect _ _ _ _ | .listen _ => false
  | _ => true

theorem startCall_sends {e : Event} (hidle : m.call = .idle) (hsame : e.sameConn = true)
    (h : startCall m e = some (m', out)) : Sends m e m' out := by
  have hplain : m.call.plain = true := plain_of_call hidle rfl
  cases e with
  | receive bufLen =>
    cases h
    refine .aside hplain hplain (.inl rfl) ?_ nofun nofun
    intro segment hmem
    simp at hmem
  | send data =>
    cases h
    exact .begun data hidle
  | close =>
    unfold startCall at h
    dsimp only at h
    split at h
    · cases h
      exact .aside hplain rfl (.inl rfl) bare_nil nofun nofun
    · split at h <;> cases h
      · exact .aside hplain hplain (.inl rfl) (bare_returned _) nofun nofun
      · exact .closes hidle
  | abort =>
    unfold startCall at h
    dsimp only at h
    rw [tcpAbort_eq] at h
    cases h
    exact .aside hplain hplain (.inr rfl) (tcpAbort_bare _) nofun nofun
  | connect => cases hsame
  | listen => cases hsame
  | arrive => cases h
  | transmitted => cases h
  | poll => cases h
  | timeout => cases h

theorem step_sends {e : Event} (hsame : e.sameConn = true) (h : step m e = some (m', out)) :
    Sends m e m' out := by
  unfold step at h
  split at h
  · cases h
    exact .arrive _ _
  · exact afterTransmit_sends h
  · exact afterPoll_sends h
  · exact afterTimeout_sends h
  · split at h
    · exact startCall_sends ‹_› hsame h
    · cases h

end Steps

def ahead (base x : UInt32) : Nat := (x - base).toNat

/-- A connection at its start: its `SYN` is about to be sent, or one of the two has been answered. -/
inductive Starts (isn : UInt32) (m : Machine) : Prop
  | active (hcall : m.call = .opening) (hstate : m.conn.state = .synSent) (hseq : m.conn.mySeq = isn)
      (hacked : m.conn.peerAckedTo = isn)
  | passive (hcall : m.call = .idle) (hstate : m.conn.state = .synRcvd)
      (hseq : m.conn.mySeq = isn + 1)
      (hacked : m.conn.peerAckedTo = isn ∨ m.conn.peerAckedTo = isn + 1)
  | established (hcall : m.call = .idle) (hstate : m.conn.state = .established)
      (hseq : m.conn.mySeq = isn + 1) (hacked : m.conn.peerAckedTo = isn + 1)

def Acks.next (m : Machine) (e : Event) (_ : List Output) (acks : List UInt32) : List UInt32 :=
  match e with
  | .arrive _ seg => if accepts m.conn seg ∧ seg.has tcpAck then seg.ack :: acks else acks
  | _ => acks

/-- No acknowledgement that is taken over lies behind `my_seq`, and the numbers neither wrap around nor come back.
-/
def Sequenced (isn : UInt32) (m : Machine) (_ : List UInt32) : Event → Prop
  | .arrive _ seg =>
    (Handled m.conn seg → seg.has tcpAck = true → seg.ack > m.conn.peerAckedTo →
      ahead isn seg.ack ≤ ahead isn m.conn.mySeq) ∧
    (TakesFin m.conn seg → ahead isn m.conn.mySeq + 1 < 2 ^ 32)
  | .transmitted true =>
    match m.call with
    | .transmitting data sent segSeq _ =>
      isn.toNat ≤ segSeq.toNat ∧ segSeq.toNat + (chunk data sent).length < 2 ^ 32 ∧
        ahead isn m.conn.mySeq + (chunk data sent).length < 2 ^ 32
    | .finishing _ _ => ahead isn m.conn.mySeq + 1 < 2 ^ 32
    | _ => True
  | .transmitted false =>
    match m.call with
    | .finishing _ _ => ahead isn m.conn.mySeq + 1 < 2 ^ 32
    | _ => True
  | .connect _ _ _ _ | .listen _ => False
  | _ => True

def Accounted (isn : UInt32) (c : Conn) : Prop := ahead isn c.peerAckedTo ≤ ahead isn c.mySeq

/-- An acknowledgement that has been received covers all up to `seqEnd`, within what has been sent. -/
def Covered (acks : List UInt32) (c : Conn) (seqEnd : UInt32) : Prop :=
  ∃ ack ∈ acks, ahead seqEnd ack ≤ ahead seqEnd c.mySeq

/-- A call that waits for a chunk goes on waiting or returns without the chunk, unless an
acknowledgement of the chunk has been received. -/
def Counting (acks : List UInt32) (m m' : Machine) (out : List Output) : Prop :=
  ∀ data sent segSeq attempts, m.call = .waiting data sent segSeq attempts →
    Covered acks m.conn (segSeq + UInt32.ofNat (chunk data sent).length) ∨
    (∃ attempts', m'.call = .waiting data sent segSeq attempts') ∨
    (m'.call = .idle ∧ ∃ result, .returned result ∈ out ∧
      (result = sentOrError sent ∨ result = asInt sent))

structure Sequences (isn : UInt32) (m : Machine) (acks : List UInt32) : Prop where
  accounted : Accounted isn m.conn
  known : m.conn.peerAckedTo = isn ∨ m.conn.peerAckedTo = isn + 1 ∨ m.conn.peerAckedTo ∈ acks
  begun : m.call ≠ .opening → Live m.conn.state → 1 ≤ ahead isn m.conn.mySeq
  opening : m.call = .opening → ahead isn m.conn.mySeq = 0 ∨
    (ahead isn m.conn.mySeq = 1 ∧ ¬ Live m.conn.state)
  listen : m.conn.state ≠ .listen
  transmitting : ∀ data sent segSeq ack, m.call = .transmitting data sent segSeq ack →
    sent < data.length ∧ 1 ≤ ahead isn segSeq ∧ 1 ≤ ahead isn m.conn.mySeq
  waiting : ∀ data sent segSeq attempts, m.call = .waiting data sent segSeq attempts →
    sent < data.length ∧ 1 ≤ ahead isn segSeq ∧ 1 ≤ ahead isn m.conn.mySeq ∧
      isn.toNat ≤ segSeq.toNat ∧ segSeq.toNat + (chunk data sent).length < 2 ^ 32

section Positions

variable {base x y : UInt32} {n : Nat}

theorem toNat_add_ofNat (h : x.toNat + n < 2 ^ 32) : (x + UInt32.ofNat n).toNat = x.toNat + n := by
  rw [UInt32.toNat_add, UInt32.toNat_ofNat']
  omega

theorem ahead_self (x : UInt32) : ahead x x = 0 := by
  unfold ahead
  rw [UInt32.sub_self]
  rfl

theorem ahead_add (h : ahead base x + n < 2 ^ 32) : ahead base (x + UInt32.ofNat n) = ahead base x + n := by
  unfold ahead at h ⊢
  rw [show x + UInt32.ofNat n - base = x - base + UInt32.ofNat n by
    rw [UInt32.sub_eq_add_neg, UInt32.sub_eq_add_neg, UInt32.add_assoc, UInt32.add_assoc,
      UInt32.add_comm (UInt32.ofNat n)]]
  exact toNat_add_ofNat h

theorem ahead_add_one (h : ahead base x + 1 < 2 ^ 32) : ahead base (x + 1) = ahead base x + 1 :=
  ahead_add h

theorem ahead_of_le (h : base.toNat ≤ x.toNat) : ahead base x = x.toNat - base.toNat := by
  exact UInt32.toNat_sub_of_le _ _ (UInt32.le_iff_toNat_le.mpr h)

theorem ahead_le_ahead (hy : ahead base y ≤ ahead base x) {z : UInt32}
    (hz : ahead base z ≤ ahead base y) : ahead z y ≤ ahead z x := by
  unfold ahead at *
  rw [UInt32.toNat_sub] at *
  have := z.toNat_lt
  rw [UInt32.toNat_sub] at *
  omega

theorem chunk_length_pos {data : List UInt8} {sent : Nat} (h : sent < data.length) :
    0 < (chunk data sent).length := by
  unfold chunk
  rw [length_take, length_drop]
  have : 0 < chunkSize := by decide
  omega

end Positions

section Accounting

variable {isn : UInt32} {m m' : Machine} {acks : List UInt32} {e : Event} {out : List Output}

section

variable (h : Sequences isn m acks)

include h

theorem Sequences.plain (hopening : m.call ≠ .opening) {call : Call}
    (hplain : call.plain = true) {state : TcpState} {rxBuf : List UInt8}
    (hstate : state = m.conn.state ∨ state = .closed) :
    Sequences isn { conn := { m.conn with state := state, rxBuf := rxBuf }, call := call } acks :=
  { accounted := h.accounted
    known := h.known
    begun := by
      intro _ hlive
      rcases hstate with rfl | rfl
      · exact h.begun hopening hlive
      · exact absurd hlive ending_closed.not_live
    opening := by
      rintro rfl
      cases hplain
    listen := by
      rcases hstate with rfl | rfl
      · exact h.listen
      · nofun
    transmitting := by
      rintro data sent segSeq ack rfl
      cases hplain
    waiting := by
      rintro data sent segSeq attempts rfl
      cases hplain }

theorem Sequences.next (hbegun : 1 ≤ ahead isn m.conn.mySeq)
    (hopening : m.call ≠ .opening) (data : List UInt8) (sent : Nat) :
    Sequences isn { m with call := (sendNext m.conn data sent).1 } acks := by
  unfold sendNext
  split
  · exact
      { accounted := h.accounted
        known := h.known
        begun := fun _ _ => hbegun
        opening := nofun
        listen := h.listen
        transmitting := by
          rintro _ _ _ _ ⟨⟩
          exact ⟨‹_›, hbegun, hbegun⟩
        waiting := nofun }
  · exact h.plain hopening rfl (.inl rfl)

theorem Sequences.arrive {ticks : UInt32} {seg : Segment}
    (hsequenced : Sequenced isn m acks (.arrive ticks seg)) :
    Sequences isn { m with conn := (handleSegment ticks seg m.conn).1 }
      (Acks.next m (.arrive ticks seg) out acks) := by
  obtain ⟨hack, hfin⟩ := hsequenced
  have hspec := handleSegment_acknowledged ticks seg h.listen
  generalize (handleSegment ticks seg m.conn).1 = c' at hspec
  have hahead : ahead isn c'.mySeq = ahead isn m.conn.mySeq ∨
      (TakesFin m.conn seg ∧ ahead isn c'.mySeq = ahead isn m.conn.mySeq + 1) := by
    rcases hspec.mySeq with heq | ⟨htakes, heq⟩
    · exact .inl (by rw [heq])
    · exact .inr ⟨htakes, by rw [heq, ahead_add_one (hfin htakes)]⟩
  have hmono : ahead isn m.conn.mySeq ≤ ahead isn c'.mySeq := by omega
  exact
    { accounted := by
        show ahead isn c'.peerAckedTo ≤ ahead isn c'.mySeq
        rcases hspec.peerAckedTo with heq | ⟨-, hflag, heq, ⟨hhandled, hgreater⟩ | hmine⟩
        · rw [heq]
          exact h.accounted.trans hmono
        · rw [heq]
          exact (hack hhandled hflag hgreater).trans hmono
        · rw [heq, hmine]
          exact hmono
      known := by
        unfold Acks.next
        dsimp only
        rcases hspec.peerAckedTo with heq | ⟨haccepts, hflag, heq, -⟩
        · rw [heq]
          refine h.known.imp_right (Or.imp_right fun hmem => ?_)
          split
          · exact mem_cons_of_mem _ hmem
          · exact hmem
        · rw [if_pos ⟨haccepts, hflag⟩, heq]
          exact .inr (.inr mem_cons_self)
      begun := fun hopening hlive =>
        (h.begun hopening (hspec.live hlive).1).trans hmono
      opening := by
        intro hopening
        rcases h.opening hopening with hzero | ⟨hone, hnot⟩
        · rcases hahead with heq | ⟨htakes, heq⟩
          · exact .inl (heq.trans hzero)
          · refine .inr ⟨heq.trans (by rw [hzero]), fun hlive => (hspec.live hlive).2 htakes⟩
        · have hnot' : ¬ Live c'.state := fun hlive => hnot (hspec.live hlive).1
          rcases hahead with heq | ⟨htakes, -⟩
          · exact .inr ⟨heq.trans hone, hnot'⟩
          · exact absurd (.inr (.inr htakes.2.2)) hnot
      listen := hspec.listen
      transmitting := fun data sent segSeq ack hcall => by
        obtain ⟨hsent, hseg, hmine⟩ := h.transmitting data sent segSeq ack hcall
        exact ⟨hsent, hseg, hmine.trans hmono⟩
      waiting := fun data sent segSeq attempts hcall => by
        obtain ⟨hsent, hseg, hmine, hwrap⟩ := h.waiting data sent segSeq attempts hcall
        exact ⟨hsent, hseg, hmine.trans hmono, hwrap⟩ }

theorem Sequences.step (hsequenced : Sequenced isn m acks e)
    (hsends : Sends m e m' out) : Sequences isn m' (Acks.next m e out acks) := by
  cases hsends with
  | arrive ticks seg => exact h.arrive hsequenced
  | opened hcall =>
    have hahead : ahead isn (m.conn.mySeq + 1) = ahead isn m.conn.mySeq + 1 := by
      refine ahead_add_one ?_
      rcases h.opening hcall with heq | ⟨heq, -⟩ <;> rw [heq] <;> decide
    exact
      { accounted := by
          show ahead isn m.conn.peerAckedTo ≤ ahead isn (m.conn.mySeq + 1)
          rw [hahead]
          exact Nat.le_succ_of_le h.accounted
        known := h.known
        begun := fun _ _ => by
          rw [hahead]
          exact Nat.le_add_left _ _
        opening := nofun
        listen := h.listen
        transmitting := nofun
        waiting := nofun }
  | unopened hcall =>
    exact
      { accounted := h.accounted
        known := h.known
        begun := fun _ hlive => absurd hlive ending_closed.not_live
        opening := nofun
        listen := nofun
        transmitting := nofun
        waiting := nofun }
  | begun data hcall =>
    have hopening : m.call ≠ .opening := by
      rw [hcall]
      decide
    unfold tcpSend
    split
    · exact h.plain hopening rfl (.inl rfl)
    · rename_i hstate
      have hlive : Live m.conn.state := .inr (.inr (not_not.mp hstate))
      exact h.next (h.begun hopening hlive) hopening data 0
  | transmitted hcall =>
    rename_i data sent segSeq ack
    unfold Sequenced at hsequenced
    simp only [hcall] at hsequenced
    obtain ⟨hlow, hwrap, hroom⟩ := hsequenced
    obtain ⟨hsent, hseg, hmine⟩ := h.transmitting data sent segSeq ack hcall
    have hahead := ahead_add hroom
    have hle : ahead isn m.conn.mySeq ≤
        ahead isn (m.conn.mySeq + UInt32.ofNat (chunk data sent).length) := by
      rw [hahead]
      exact Nat.le_add_right _ _
    exact
      { accounted := h.accounted.trans hle
        known := h.known
        begun := fun _ _ => hmine.trans hle
        opening := nofun
        listen := h.listen
        transmitting := nofun
        waiting := by
          rintro _ _ _ _ ⟨⟩
          exact ⟨hsent, hseg, hmine.trans hle, hlow, hwrap⟩ }
  | unresolved hcall => exact h.plain (by rw [hcall]; nofun) rfl (.inl rfl)
  | counted hcall hacked =>
    obtain ⟨-, -, hmine, -⟩ := h.waiting _ _ _ _ hcall
    exact h.next hmine (by rw [hcall]; nofun) _ _
  | lost hcall hacked hclosed => exact h.plain (by rw [hcall]; nofun) rfl (.inl rfl)
  | waits hcall => exact h
  | again ok hcall =>
    exact
      { accounted := h.accounted
        known := h.known
        begun := fun _ hlive => h.begun (by rw [hcall]; nofun) hlive
        opening := nofun
        listen := h.listen
        transmitting := nofun
        waiting := by
          rintro _ _ _ _ ⟨⟩
          exact h.waiting _ _ _ _ hcall }
  | givenUp ok hcall hlast => exact h.plain (by rw [hcall]; nofun) rfl (.inl rfl)
  | closes hcall =>
    exact
      { accounted := h.accounted
        known := h.known
        begun := fun _ hlive => absurd hlive (by decide : ¬ Live .finWait1)
        opening := nofun
        listen := nofun
        transmitting := nofun
        waiting := nofun }
  | finished ok hcall =>
    have hroom : ahead isn m.conn.mySeq + 1 < 2 ^ 32 := by
      unfold Sequenced at hsequenced
      cases ok <;> simp only [hcall] at hsequenced <;> exact hsequenced
    have hahead := ahead_add_one hroom
    exact
      { accounted := by
          show ahead isn m.conn.peerAckedTo ≤ ahead isn (m.conn.mySeq + 1)
          rw [hahead]
          exact Nat.le_succ_of_le h.accounted
        known := h.known
        begun := fun _ _ => by
          rw [hahead]
          exact Nat.le_add_left _ _
        opening := nofun
        listen := h.listen
        transmitting := nofun
        waiting := nofun }
  | aside hplain hplain' hstate hbare hsend harrive =>
    have hacks : Acks.next m e out acks = acks := by
      cases e with
      | arrive ticks seg => exact absurd rfl (harrive ticks seg)
      | _ => rfl
    rw [hacks]
    refine h.plain ?_ hplain' hstate
    intro hcall
    rw [hcall] at hplain
    cases hplain

theorem Sequences.covered {data : List UInt8} {sent attempts : Nat}
    {segSeq : UInt32} (hcall : m.call = .waiting data sent segSeq attempts)
    (hacked : m.conn.peerAckedTo ≥ segSeq + UInt32.ofNat (chunk data sent).length) :
    Covered acks m.conn (segSeq + UInt32.ofNat (chunk data sent).length) := by
  obtain ⟨hsent, hseg, -, hlow, hwrap⟩ := h.waiting _ _ _ _ hcall
  have hpos := chunk_length_pos hsent
  have hend := toNat_add_ofNat hwrap
  have hge : (segSeq + UInt32.ofNat (chunk data sent).length).toNat ≤ m.conn.peerAckedTo.toNat :=
    UInt32.le_iff_toNat_le.mp hacked
  rw [ahead_of_le hlow] at hseg
  -- the number is behind the `SYN`, so it has come with an acknowledgement
  have hmem : m.conn.peerAckedTo ∈ acks := by
    rcases h.known with heq | heq | hmem
    · rw [heq] at hge
      omega
    · have hone : (isn + 1).toNat = isn.toNat + 1 := toNat_add_ofNat (n := 1) (by omega)
      rw [heq, hone] at hge
      omega
    · exact hmem
  refine ⟨_, hmem, ahead_le_ahead h.accounted ?_⟩
  rw [ahead_of_le (by omega), ahead_of_le (by omega)]
  omega

theorem Sequences.counting (hsends : Sends m e m' out) : Counting acks m m' out := by
  intro data sent segSeq attempts hcall
  cases hsends with
  | arrive ticks seg => exact .inr (.inl ⟨attempts, hcall⟩)
  | counted hcall' hacked =>
    cases hcall.symm.trans hcall'
    exact .inl (h.covered hcall hacked)
  | lost hcall' hacked hclosed =>
    cases hcall.symm.trans hcall'
    exact .inr (.inr ⟨rfl, _, mem_singleton_self _, .inl rfl⟩)
  | waits hcall' => exact .inr (.inl ⟨attempts, hcall⟩)
  | again ok hcall' =>
    cases hcall.symm.trans hcall'
    exact .inr (.inl ⟨_, rfl⟩)
  | givenUp ok hcall' hlast =>
    cases hcall.symm.trans hcall'
    exact .inr (.inr ⟨rfl, _, mem_append_right _ (mem_singleton_self _), .inr rfl⟩)
  | aside hplain hplain' hstate hbare hsend harrive =>
    rw [hcall] at hplain
    cases hplain
  | _ => cases hcall.symm.trans ‹_›

end

theorem Starts.sequences (h : Starts isn m) : Sequences isn m [] := by
  have hone : ahead isn (isn + 1) = 1 := by
    rw [ahead_add_one (by rw [ahead_self]; decide), ahead_self]
  cases h with
  | active hcall hstate hseq hacked =>
    exact
      { accounted := by
          unfold Accounted
          rw [hacked, hseq]
        known := .inl hacked
        begun := fun hopening => absurd hcall hopening
        opening := fun _ => .inl (by rw [hseq, ahead_self])
        listen := by
          rw [hstate]
          decide
        transmitting := by
          rw [hcall]
          nofun
        waiting := by
          rw [hcall]
          nofun }
  | passive hcall hstate hseq hacked =>
    exact
      { accounted := by
          unfold Accounted
          rw [hseq, hone]
          rcases hacked with hacked | hacked
          · rw [hacked, ahead_self]
            exact Nat.zero_le _
          · rw [hacked, hone]
        known := hacked.imp_right .inl
        begun := fun _ _ => by rw [hseq, hone]
        opening := by
          rw [hcall]
          nofun
        listen := by
          rw [hstate]
          decide
        transmitting := by
          rw [hcall]
          nofun
        waiting := by
          rw [hcall]
          nofun }
  | established hcall hstate hseq hacked =>
    exact
      { accounted := by
          unfold Accounted
          rw [hseq, hacked]
        known := .inr (.inl hacked)
        begun := fun _ _ => by rw [hseq, hone]
        opening := by
          rw [hcall]
          nofun
        listen := by
          rw [hstate]
          decide
        transmitting := by
          rw [hcall]
          nofun
        waiting := by
          rw [hcall]
          nofun }

theorem Sequenced.sameConn (h : Sequenced isn m acks e) : e.sameConn = true := by
  cases e with
  | connect => exact h.elim
  | listen => exact h.elim
  | _ => rfl

/-- Within such numbers `peer_acked_to` does not pass `my_seq`, and no chunk is counted unacknowledged. -/
theorem run_accounted {m₀ : Machine} {es : List Event} {out' : List Output} (hstart : Starts isn m₀)
    (hrun : run m₀ es = some (m, out)) (hstep : JexOs.Tcp.step m e = some (m', out'))
    (hsequenced : Along Acks.next (Sequenced isn) m₀ [] (es ++ [e])) :
    Accounted isn m.conn ∧ Accounted isn m'.conn ∧
      Counting (remember Acks.next m₀ [] es) m m' out' := by
  obtain ⟨hes, he⟩ := hsequenced.split hrun
  have hsequences : Sequences isn m (remember Acks.next m₀ [] es) :=
    run_induction (Sequences isn) (fun hinv hcond hs => hinv.step hcond (step_sends hcond.sameConn hs))
      hstart.sequences hrun hes
  have hsends := step_sends he.sameConn hstep
  exact ⟨hsequences.accounted, (hsequences.step he hsends).accounted, hsequences.counting hsends⟩

end Accounting

section Trial

def trialEstablished (isn : UInt32) : Machine :=
  { conn :=
      { initial with
        state := .established
        remoteIp := 1
        remotePort := 80
        localPort := 40000
        mySeq := isn + 1
        peerAckedTo := isn + 1 }
    call := .idle }

def trialSend : List Event := [.send [65], .transmitted true, .arrive 0 (trialSegment tcpAck 0 2 [])]

theorem run_accounted_send : ∃ m out m' out', run (trialEstablished 0) trialSend = some (m, out) ∧
    step m .poll = some (m', out') ∧ .returned 1 ∈ out' ∧ Accounted 0 m.conn ∧ Accounted 0 m'.conn ∧
    Counting (remember Acks.next (trialEstablished 0) [] trialSend) m m' out' := by
  have hrun : run (trialEstablished 0) trialSend = some _ := rfl
  refine ⟨_, _, _, _, hrun, rfl, by decide, run_accounted (e := .poll) ?_ hrun rfl ?_⟩
  · exact .established rfl rfl rfl rfl
  · refine ⟨trivial, fun m₁ out₁ h₁ => ?_⟩
    cases h₁
    refine ⟨⟨by decide, by decide, by decide⟩, fun m₂ out₂ h₂ => ?_⟩
    cases h₂
    exact ⟨⟨by decide, fun htakes => absurd htakes.2.1 (by decide)⟩, fun _ _ _ =>
      ⟨trivial, fun _ _ _ => trivial⟩⟩

/-- Two bytes at the last sequence number: the end of the chunk wraps around to 1, which
`peer_acked_to` looks to have passed. -/
theorem accounted_wrap_fails : ¬ ∀ isn m₀ es e m m' out out', Starts isn m₀ →
    run m₀ es = some (m, out) → step m e = some (m', out') → (es ++ [e]).all Event.sameConn = true →
    Accounted isn m.conn ∧ Accounted isn m'.conn ∧ Counting (remember Acks.next m₀ [] es) m m' out' := by
  intro h
  obtain ⟨-, -, hcounting⟩ := h 0xFFFFFFFE (trialEstablished 0xFFFFFFFE)
    [.send [65, 66], .transmitted true] .poll _ _ _ _ (.established rfl rfl rfl rfl) rfl rfl rfl
  rcases hcounting _ _ _ _ rfl with ⟨ack, hmem, -⟩ | ⟨attempts, hcall⟩ | ⟨-, result, hmem, hresult⟩
  · cases hmem
  · cases hcall
  · have heq : result = 2 := Output.returned.inj (mem_singleton.mp hmem)
    rcases hresult with hresult | hresult <;> rw [heq] at hresult <;> revert hresult <;> decide

end Trial

end JexOs.Tcp
