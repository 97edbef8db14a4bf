import JexOs.Proof.TcpSend

/-!
# The stream that is sent

The bytes that `tcp_send` transmits, placed at their sequence numbers, against the parts of the
caller's buffers that it reports as sent.
-/

namespace JexOs.Tcp

open List

def sendingData (call : Call) (e : Event) : Option (List UInt8) :=
  match e, call with
  | .send data, _ | _, .transmitting data _ _ _ | _, .waiting data _ _ _ => some data
  | _, _ => none

def payloads (out : List Output) : List (UInt32 × List UInt8) :=
  out.filterMap fun
    | .sent segment => if segment.payload = [] then none else some (segment.seq, segment.payload)
    | _ => none

def result (out : List Output) : Option Int :=
  out.findSome? fun
    | .returned result => some result
    | _ => none

/-- What a run has sent: the parts of the buffers reported as sent, all payloads, and `my_seq` at the
start of the last `tcp_send`. -/
@[ext]
structure Journal where
  reported : List UInt8
  placed : List (UInt32 × List UInt8)
  start : UInt32

def Journal.empty : Journal :=
  { reported := []
    placed := []
    start := 0 }

def report (data : List UInt8) : Option Int → List UInt8
  | some result => data.take result.toNat
  | none => []

def reportedBy (call : Call) (e : Event) (out : List Output) : List UInt8 :=
  match sendingData call e with
  | some data => report data (result out)
  | none => []

def Journal.next (m : Machine) (e : Event) (out : List Output) (g : Journal) : Journal :=
  { reported := g.reported ++ reportedBy m.call e out
    placed := g.placed ++ payloads out
    start :=
      match e with
      | .send _ => m.conn.mySeq
      | _ => g.start }

/-- The payload is what the stream has from a position on, and has the position's number. -/
def At (isn : UInt32) (stream : List UInt8) (payload : UInt32 × List UInt8) (position : Nat) : Prop :=
  payload.1 = isn + 1 + UInt32.ofNat position ∧ payload.2 <+: stream.drop position

structure OneStream (isn : UInt32) (stream : List UInt8) (placed : List (UInt32 × List UInt8)) :
    Prop where
  agrees : ∀ payload ∈ placed, ∃ position, At isn stream payload position
  covers : ∀ k < stream.length, ∃ payload ∈ placed, ∃ position, At isn stream payload position ∧
    position ≤ k ∧ k < position + payload.2.length

inductive Opens (isn : UInt32) (m : Machine) : Prop
  | active (hcall : m.call = .opening) (hstate : m.conn.state = .synSent) (hseq : m.conn.mySeq = isn)
  | passive (hcall : m.call = .idle) (hstate : m.conn.state = .synRcvd ∨ m.conn.state = .established)
      (hseq : m.conn.mySeq = isn + 1)

/-- The step breaks no `tcp_send` off behind a chunk that is under way: the length is an `int`, the connection is
not lost, and the chunk is acknowledged in time. -/
def Unbroken (m : Machine) (_ : Journal) (e : Event) : Prop :=
  match e with
  | .send data => data.length < 2 ^ 31
  | .arrive _ seg => (sendingData m.call e).isSome → ¬ TakesFin m.conn seg
  | .poll =>
    match m.call with
    | .waiting data sent segSeq _ =>
      m.conn.state = .closed →
        m.conn.peerAckedTo ≥ segSeq + UInt32.ofNat (chunk data sent).length
    | _ => True
  | .timeout _ =>
    match m.call with
    | .waiting _ _ _ attempts => attempts + 1 < tcpMaxRetries
    | _ => True
  | .connect _ _ _ _ | .listen _ => False
  | _ => True

/-- What of the buffer has been transmitted and is not reported yet. -/
def underWay : Call → List UInt8
  | .transmitting data sent _ _ => data.take sent
  | .waiting data sent _ _ => data.take (sent + (chunk data sent).length)
  | _ => []

def Position (isn : UInt32) (m : Machine) (g : Journal) : Prop :=
  match m.call with
  | .opening => Live m.conn.state → m.conn.mySeq = isn ∧ g.reported = []
  | .transmitting data sent segSeq _ => sent < data.length ∧ data.length < 2 ^ 31 ∧
      segSeq = isn + 1 + UInt32.ofNat (g.reported.length + sent) ∧ m.conn.mySeq = segSeq ∧
      g.start = isn + 1 + UInt32.ofNat g.reported.length
  | .waiting data sent segSeq _ => sent < data.length ∧ data.length < 2 ^ 31 ∧
      segSeq = isn + 1 + UInt32.ofNat (g.reported.length + sent) ∧
      m.conn.mySeq = segSeq + UInt32.ofNat (chunk data sent).length ∧
      g.start = isn + 1 + UInt32.ofNat g.reported.length
  | .finishing _ _ => ¬ Live m.conn.state
  | _ => Live m.conn.state → m.conn.mySeq = isn + 1 + UInt32.ofNat g.reported.length

structure Flow (isn : UInt32) (m : Machine) (g : Journal) : Prop where
  stream : OneStream isn (g.reported ++ underWay m.call) g.placed
  position : Position isn m g
  listen : m.conn.state ≠ .listen

section Streams

variable {isn : UInt32} {stream : List UInt8} {placed : List (UInt32 × List UInt8)}

theorem oneStream_nil (isn : UInt32) : OneStream isn [] [] :=
  ⟨nofun, nofun⟩

theorem At.append {payload : UInt32 × List UInt8} {position : Nat} (rest : List UInt8)
    (h : At isn stream payload position) : At isn (stream ++ rest) payload position := by
  refine ⟨h.1, h.2.trans ?_⟩
  rw [drop_append]
  exact List.prefix_append _ _

theorem OneStream.again (h : OneStream isn stream placed) {payload : UInt32 × List UInt8}
    {position : Nat} (hat : At isn stream payload position) : OneStream isn stream (placed ++ [payload]) := by
  refine ⟨fun payload' hmem => ?_, fun k hk => ?_⟩
  · rcases mem_append.mp hmem with hmem | hmem
    · exact h.agrees payload' hmem
    · rw [mem_singleton.mp hmem]
      exact ⟨position, hat⟩
  · obtain ⟨payload', hmem, hrest⟩ := h.covers k hk
    exact ⟨payload', mem_append_left _ hmem, hrest⟩

theorem OneStream.extend (h : OneStream isn stream placed) (bytes : List UInt8) :
    OneStream isn (stream ++ bytes)
      (placed ++ [(isn + 1 + UInt32.ofNat stream.length, bytes)]) := by
  have hnew : At isn (stream ++ bytes) (isn + 1 + UInt32.ofNat stream.length, bytes)
      stream.length := by
    refine ⟨rfl, ?_⟩
    simp only [drop_left, prefix_rfl]
  refine ⟨fun payload hmem => ?_, fun k hk => ?_⟩
  · rcases mem_append.mp hmem with hmem | hmem
    · obtain ⟨position, hat⟩ := h.agrees payload hmem
      exact ⟨position, hat.append bytes⟩
    · rw [mem_singleton.mp hmem]
      exact ⟨_, hnew⟩
  · by_cases hold : k < stream.length
    · obtain ⟨payload, hmem, position, hat, hrange⟩ := h.covers k hold
      exact ⟨payload, mem_append_left _ hmem, position, hat.append bytes, hrange⟩
    · rw [length_append] at hk
      exact ⟨_, mem_append_right _ (mem_singleton_self _), _, hnew, by omega, hk⟩

end Streams

theorem Bare.payloads {out : List Output} (h : Bare out) : payloads out = [] := by
  refine filterMap_eq_nil_iff.mpr fun output hmem => ?_
  cases output with
  | sent segment => exact if_pos (h segment hmem)
  | _ => rfl

theorem result_sent (segments : List Sent) : result (segments.map .sent) = none := by
  induction segments with
  | nil => rfl
  | cons segment segments ih => exact ih

theorem result_onWire (ok : Bool) (segment : Sent) : result (onWire ok segment) = none := by
  cases ok <;> rfl

theorem handleSegment_bare (ticks : UInt32) (seg : Segment) (c : Conn) :
    Bare ((handleSegment ticks seg c).2.map .sent) := by
  have hall : ∀ segment ∈ (handleSegment ticks seg c).2, segment.payload = [] := by
    unfold handleSegment
    split
    · nofun
    · split
      · unfold onListen
        split
        · simp
        · nofun
      · split
        · nofun
        · split
          · unfold onSynAck
            split
            · simp [pureAck]
            · nofun
          · have hdata : ∀ c', ∀ segment ∈ (onData seg c').2, segment.payload = [] := by
              intro c'
              unfold onData
              split
              · split <;> simp [pureAck]
              · nofun
            have hfin : ∀ c', ∀ segment ∈ (onFin seg c').2, segment.payload = [] := by
              intro c'
              unfold onFin
              dsimp only
              split
              · simp [pureAck]
              · split <;> simp [pureAck]
            unfold onSegment
            intro segment hmem
            rcases mem_append.mp hmem with hmem | hmem
            · exact hdata _ segment hmem
            · revert hmem
              split
              · exact hfin _ segment
              · nofun
  intro segment hmem
  obtain ⟨segment', hmem', heq⟩ := mem_map.mp hmem
  cases heq
  exact hall segment hmem'

theorem take_chunk (data : List UInt8) (sent : Nat) :
    data.take (sent + (chunk data sent).length) = data.take sent ++ chunk data sent := by
  unfold chunk
  rw [take_add, length_take]
  congr 1
  rcases Nat.le_total chunkSize (data.drop sent).length with h | h
  · rw [Nat.min_eq_left h]
  · rw [Nat.min_eq_right h, take_of_length_le h, take_length]

theorem asInt_of_lt {n : Nat} (h : n < 2 ^ 31) : asInt n = n := by
  unfold asInt
  have hnat : (BitVec.ofNat 32 n).toNat = n := by
    rw [BitVec.toNat_ofNat]
    omega
  rw [BitVec.toInt_eq_toNat_of_lt (by omega), hnat]

theorem sentOrError_toNat {n : Nat} (h : n < 2 ^ 31) : (sentOrError n).toNat = n := by
  unfold sentOrError
  rw [asInt_of_lt h]
  split <;> omega

theorem ofNat_add_assoc (x : UInt32)
    (a b : Nat) : x + UInt32.ofNat (a + b) = x + UInt32.ofNat a + UInt32.ofNat b := by
  rw [UInt32.ofNat_add, UInt32.add_assoc]

section Steps

variable {isn : UInt32} {m m' : Machine} {g : Journal} {e : Event} {out : List Output}

/-- The `tcp_send` that the step belongs to returns, and `my_seq` has moved on by what it reports. -/
def Advanced (m : Machine) (e : Event) (m' : Machine) (out : List Output) (g' : Journal) : Prop :=
  ∀ data r, sendingData m.call e = some data → result out = some r →
    m'.conn.mySeq = g'.start + UInt32.ofNat r.toNat

theorem Flow.returns {data : List UInt8} {sent : Nat} {r : Int} (hr : r.toNat = sent)
    (hsent : sent ≤ data.length) (hstream : OneStream isn (g.reported ++ data.take sent) g.placed)
    (hseq : m.conn.mySeq = isn + 1 + UInt32.ofNat (g.reported.length + sent))
    (hstart : g.start = isn + 1 + UInt32.ofNat g.reported.length) (hlisten : m.conn.state ≠ .listen) :
    Flow isn { m with call := .idle } { g with reported := g.reported ++ data.take r.toNat } ∧
      m.conn.mySeq = g.start + UInt32.ofNat r.toNat := by
  rw [hr]
  refine ⟨⟨?_, fun _ => ?_, hlisten⟩, ?_⟩
  · show OneStream isn (g.reported ++ data.take sent ++ []) g.placed
    rw [append_nil]
    exact hstream
  · rw [hseq, length_append, length_take, Nat.min_eq_left hsent]
  · rw [hseq, hstart, ofNat_add_assoc]

theorem Flow.next {data : List UInt8} {sent : Nat} (hlength : data.length < 2 ^ 31)
    (hsent : sent ≤ data.length) (hstream : OneStream isn (g.reported ++ data.take sent) g.placed)
    (hseq : m.conn.mySeq = isn + 1 + UInt32.ofNat (g.reported.length + sent))
    (hstart : g.start = isn + 1 + UInt32.ofNat g.reported.length) (hlisten : m.conn.state ≠ .listen) :
    Flow isn { m with call := (sendNext m.conn data sent).1 }
        { g with
          reported := g.reported ++ report data (result (sendNext m.conn data sent).2) } ∧
      ∀ r, result (sendNext m.conn data sent).2 = some r →
        m.conn.mySeq = g.start + UInt32.ofNat r.toNat := by
  unfold sendNext
  split
  · refine ⟨⟨?_, ?_, hlisten⟩, nofun⟩
    · show OneStream isn (g.reported ++ [] ++ data.take sent) g.placed
      rw [append_nil]
      exact hstream
    · show _ ∧ _ ∧ _ = isn + 1 + UInt32.ofNat ((g.reported ++ []).length + sent) ∧ _ ∧
        g.start = isn + 1 + UInt32.ofNat (g.reported ++ []).length
      rw [append_nil]
      exact ⟨‹_›, hlength, hseq, rfl, hstart⟩
  · have hall : (asInt sent).toNat = sent := by
      rw [asInt_of_lt (by omega)]
      rfl
    obtain ⟨hflow, hadvanced⟩ := Flow.returns (m := m) hall hsent hstream hseq hstart hlisten
    refine ⟨hflow, fun r hr => ?_⟩
    cases hr
    exact hadvanced

theorem Journal.next_quiet (hresult : sendingData m.call e = none ∨ result out = none)
    (hbare : Bare out) (hsend : ∀ data, e ≠ .send data) : Journal.next m e out g = g := by
  have hreported : reportedBy m.call e out = [] := by
    unfold reportedBy
    rcases hresult with h | h
    · rw [h]
    · rw [h]
      cases sendingData m.call e <;> rfl
  ext1
  · show g.reported ++ reportedBy m.call e out = g.reported
    rw [hreported, append_nil]
  · show g.placed ++ payloads out = g.placed
    rw [hbare.payloads, append_nil]
  · cases e with
    | send data => exact absurd rfl (hsend data)
    | _ => rfl

theorem Flow.of_quiet (h : Flow isn m' g) (hresult : sendingData m.call e = none ∨ result out = none)
    (hbare : Bare out) (hsend : ∀ data, e ≠ .send data) :
    Flow isn m' (Journal.next m e out g) ∧ Advanced m e m' out (Journal.next m e out g) := by
  rw [Journal.next_quiet hresult hbare hsend]
  refine ⟨h, fun data r hdata hr => ?_⟩
  rcases hresult with hnone | hnone
  · rw [hnone] at hdata
    cases hdata
  · rw [hnone] at hr
    cases hr

theorem Journal.next_report {data : List UInt8} (hdata : sendingData m.call e = some data)
    (hbare : Bare out) : Journal.next m e out g =
      { reported := g.reported ++ report data (result out)
        placed := g.placed
        start := (Journal.next m e out g).start } := by
  ext1
  · show g.reported ++ reportedBy m.call e out = _
    unfold reportedBy
    rw [hdata]
  · show g.placed ++ payloads out = g.placed
    rw [hbare.payloads, append_nil]
  · rfl

theorem Journal.next_transmit (hresult : result out = none) (hsend : ∀ data, e ≠ .send data) :
    Journal.next m e out g = { g with placed := g.placed ++ payloads out } := by
  ext1
  · show g.reported ++ reportedBy m.call e out = g.reported
    unfold reportedBy
    rw [hresult]
    cases sendingData m.call e <;> exact append_nil _
  · rfl
  · cases e with
    | send data => exact absurd rfl (hsend data)
    | _ => rfl

theorem payloads_data {payload : List UInt8} (h : payload ≠ []) (seq ack : UInt32) :
    payloads [.sent (dataSegment seq ack payload)] = [(seq, payload)] := by
  simp [payloads, dataSegment, h]

theorem sendNext_bare (c : Conn) (data : List UInt8) (sent : Nat) : Bare (sendNext c data sent).2 := by
  unfold sendNext
  split
  · exact bare_nil
  · exact bare_returned _

theorem Flow.arrive {ticks : UInt32} {seg : Segment} (h : Flow isn m g)
    (hunbroken : Unbroken m g (.arrive ticks seg)) :
    Flow isn { m with conn := (handleSegment ticks seg m.conn).1 } g := by
  have hspec := handleSegment_acknowledged ticks seg h.listen
  generalize (handleSegment ticks seg m.conn).1 = c' at hspec
  have hseq : ¬ TakesFin m.conn seg → c'.mySeq = m.conn.mySeq :=
    fun hnot => hspec.mySeq.resolve_right fun htakes => hnot htakes.1
  refine ⟨h.stream, ?_, hspec.listen⟩
  have hposition := h.position
  unfold Position at hposition ⊢
  unfold Unbroken at hunbroken
  cases hcall : m.call with
  | opening =>
    rw [hcall] at hposition
    intro hlive
    obtain ⟨hbefore, hnot⟩ := hspec.live hlive
    rw [hseq hnot]
    exact hposition hbefore
  | transmitting data sent segSeq ack =>
    rw [hcall] at hposition hunbroken
    rw [hseq (hunbroken rfl)]
    exact hposition
  | waiting data sent segSeq attempts =>
    rw [hcall] at hposition hunbroken
    rw [hseq (hunbroken rfl)]
    exact hposition
  | finishing seq ack =>
    rw [hcall] at hposition
    exact fun hlive => hposition (hspec.live hlive).1
  | _ =>
    rw [hcall] at hposition
    intro hlive
    obtain ⟨hbefore, hnot⟩ := hspec.live hlive
    rw [hseq hnot]
    exact hposition hbefore

theorem Flow.plain {call : Call} {state : TcpState} {rxBuf : List UInt8} (h : Flow isn m g)
    (hplain : m.call.plain = true) (hplain' : call.plain = true)
    (hstate : state = m.conn.state ∨ state = .closed) :
    Flow isn { conn := { m.conn with state := state, rxBuf := rxBuf }, call := call } g := by
  have hunder {call : Call} (hcall : call.plain = true) : underWay call = [] := by
    cases call <;> first | rfl | cases hcall
  have hposition : Live m.conn.state → m.conn.mySeq = isn + 1 + UInt32.ofNat g.reported.length := by
    have hbefore := h.position
    unfold Position at hbefore
    cases hcall : m.call <;> rw [hcall] at hbefore hplain <;> first | exact hbefore | cases hplain
  have hlive : Live state → Live m.conn.state := by
    rcases hstate with rfl | rfl
    · exact id
    · exact fun hlive => absurd hlive ending_closed.not_live
  refine ⟨?_, ?_, ?_⟩
  · rw [hunder hplain', ← hunder hplain]
    exact h.stream
  · cases call <;> first | exact fun hl => hposition (hlive hl) | cases hplain'
  · rcases hstate with rfl | rfl
    · exact h.listen
    · nofun

theorem Flow.step (h : Flow isn m g) (hunbroken : Unbroken m g e) (hsends : Sends m e m' out) :
    Flow isn m' (Journal.next m e out g) ∧ Advanced m e m' out (Journal.next m e out g) := by
  have hposition := h.position
  have hstream := h.stream
  unfold Position at hposition
  cases hsends with
  | arrive ticks seg =>
    exact (h.arrive hunbroken).of_quiet (.inr (result_sent _)) (handleSegment_bare _ _ _) nofun
  | opened hcall =>
    rw [hcall] at hposition hstream
    refine Flow.of_quiet ⟨hstream, fun hlive => ?_, h.listen⟩ (.inr rfl) (bare_sent rfl) nofun
    obtain ⟨hseq, hreported⟩ := hposition hlive
    rw [hseq, hreported]
    simp
  | unopened hcall =>
    rw [hcall] at hstream
    exact Flow.of_quiet ⟨hstream, fun hlive => absurd hlive ending_closed.not_live, nofun⟩
      (.inl (by rw [hcall]; rfl)) (bare_returned _) nofun
  | begun data hcall =>
    rw [hcall] at hposition hstream
    replace hstream : OneStream isn g.reported g.placed := by simpa [underWay] using hstream
    unfold tcpSend
    split
    · rw [Journal.next_report (show sendingData m.call (.send data) = some data from rfl) (bare_returned _)]
      refine ⟨⟨?_, ?_, h.listen⟩, ?_⟩
      · show OneStream isn (g.reported ++ data.take 0 ++ []) g.placed
        simpa using hstream
      · intro hlive
        show m.conn.mySeq = isn + 1 + UInt32.ofNat (g.reported ++ data.take 0).length
        rw [take_zero, append_nil]
        exact hposition hlive
      · rintro data' r - ⟨⟩
        exact (UInt32.add_zero _).symm
    · rename_i hstate
      have hseq := hposition (.inr (.inr (not_not.mp hstate)))
      obtain ⟨hflow, hadvanced⟩ := Flow.next (m := m) (g := { g with start := m.conn.mySeq })
        hunbroken (Nat.zero_le _) (by simpa using hstream) hseq hseq h.listen
      rw [Journal.next_report (show sendingData m.call (.send data) = some data from rfl)
        (sendNext_bare _ _ _)]
      exact ⟨hflow, fun data' r _ hr => hadvanced r hr⟩
  | transmitted hcall =>
    rename_i data sent segSeq ack
    rw [hcall] at hposition hstream
    obtain ⟨hsent, hlength, hseg, hseq, hstart⟩ := hposition
    have hpayload : chunk data sent ≠ [] := ne_nil_of_length_pos (chunk_length_pos hsent)
    rw [Journal.next_transmit (e := .transmitted true) rfl nofun, payloads_data hpayload]
    refine ⟨⟨?_, ?_, h.listen⟩, nofun⟩
    · show OneStream isn (g.reported ++ data.take (sent + (chunk data sent).length)) _
      have hlen : (g.reported ++ data.take sent).length = g.reported.length + sent := by
        rw [length_append, length_take, Nat.min_eq_left hsent.le]
      rw [take_chunk, ← append_assoc, hseg, ← hlen]
      exact hstream.extend _
    · exact ⟨hsent, hlength, hseg, by rw [← hseq], hstart⟩
  | unresolved hcall =>
    rename_i data sent segSeq ack
    rw [hcall] at hposition hstream
    obtain ⟨hsent, hlength, hseg, hseq, hstart⟩ := hposition
    have hdata : sendingData m.call (.transmitted false) = some data := by rw [hcall]; rfl
    rw [Journal.next_report hdata (bare_returned _)]
    obtain ⟨hflow, hadvanced⟩ := Flow.returns (m := m) (g := g) (r := sentOrError sent)
      (sentOrError_toNat (by omega)) hsent.le hstream (hseq.trans hseg) hstart h.listen
    refine ⟨hflow, ?_⟩
    rintro data' r - ⟨⟩
    exact hadvanced
  | counted hcall hacked =>
    rename_i data sent attempts segSeq
    rw [hcall] at hposition hstream
    obtain ⟨hsent, hlength, hseg, hseq, hstart⟩ := hposition
    have hdata : sendingData m.call .poll = some data := by rw [hcall]; rfl
    rw [Journal.next_report hdata (sendNext_bare _ _ _)]
    have hle : sent + (chunk data sent).length ≤ data.length := by
      unfold chunk
      rw [length_take, length_drop]
      omega
    obtain ⟨hflow, hadvanced⟩ := Flow.next (m := m) (g := g) hlength hle hstream
      (by rw [hseq, hseg, ← Nat.add_assoc, ← ofNat_add_assoc]) hstart h.listen
    exact ⟨hflow, fun data' r _ hr => hadvanced r hr⟩
  | lost hcall hacked hclosed =>
    unfold Unbroken at hunbroken
    rw [hcall] at hunbroken
    exact absurd (hunbroken hclosed) hacked
  | waits hcall => exact h.of_quiet (.inr rfl) bare_nil nofun
  | again ok hcall =>
    rename_i data sent attempts segSeq
    rw [hcall] at hposition hstream
    obtain ⟨hsent, hlength, hseg, hseq, hstart⟩ := hposition
    have hpayload : chunk data sent ≠ [] := ne_nil_of_length_pos (chunk_length_pos hsent)
    have hresult := result_onWire ok (dataSegment segSeq m.conn.myAck (chunk data sent))
    rw [Journal.next_transmit (e := .timeout ok) hresult nofun]
    refine ⟨⟨?_, ⟨hsent, hlength, hseg, hseq, hstart⟩, h.listen⟩, fun data' r _ hr => ?_⟩
    · cases ok with
      | false =>
        show OneStream isn _ (g.placed ++ [])
        rw [append_nil]
        exact hstream
      | true =>
        show OneStream isn _ (g.placed ++ payloads [_])
        rw [payloads_data hpayload]
        refine hstream.again ⟨hseg, ?_⟩
        have hlen : (g.reported ++ data.take sent).length = g.reported.length + sent := by
          rw [length_append, length_take, Nat.min_eq_left hsent.le]
        show chunk data sent <+:
          (g.reported ++ data.take (sent + (chunk data sent).length)).drop (g.reported.length + sent)
        rw [take_chunk, ← append_assoc, ← hlen]
        simp only [drop_left, prefix_rfl]
    · rw [hresult] at hr
      cases hr
  | givenUp ok hcall hlast =>
    unfold Unbroken at hunbroken
    rw [hcall] at hunbroken
    exact absurd hunbroken hlast
  | closes hcall =>
    rw [hcall] at hstream
    exact Flow.of_quiet ⟨hstream, (by decide : ¬ Live .finWait1), nofun⟩ (.inr rfl) bare_nil nofun
  | finished ok hcall =>
    rw [hcall] at hposition hstream
    exact Flow.of_quiet ⟨hstream, fun hlive => absurd hlive hposition, h.listen⟩
      (.inr (result_onWire _ _)) (bare_onWire _ rfl) nofun
  | aside hplain hplain' hstate hbare hsend harrive =>
    refine (h.plain hplain hplain' hstate).of_quiet (.inl ?_) hbare hsend
    cases e with
    | send data => exact absurd rfl (hsend data)
    | _ => cases hcall : m.call <;> first | rfl | (rw [hcall] at hplain; cases hplain)

theorem Opens.flow (h : Opens isn m) : Flow isn m .empty := by
  cases h with
  | active hcall hstate hseq =>
    refine ⟨?_, ?_, ?_⟩
    · rw [hcall]
      exact oneStream_nil isn
    · unfold Position
      rw [hcall]
      exact fun _ => ⟨hseq, rfl⟩
    · rw [hstate]
      decide
  | passive hcall hstate hseq =>
    refine ⟨?_, ?_, ?_⟩
    · rw [hcall]
      exact oneStream_nil isn
    · unfold Position
      rw [hcall]
      intro _
      rw [hseq]
      exact (UInt32.add_zero _).symm
    · rcases hstate with hstate | hstate <;> rw [hstate] <;> decide

theorem Unbroken.sameConn (h : Unbroken m g e) : e.sameConn = true := by
  cases e with
  | connect => exact h.elim
  | listen => exact h.elim
  | _ => rfl

/-- In a run in which no `tcp_send` is broken off, what has been transmitted is what has been reported as sent. -/
theorem run_unbroken {m₀ : Machine} {es : List Event} {out' : List Output} (hopens : Opens isn m₀)
    (hrun : run m₀ es = some (m, out)) (hstep : JexOs.Tcp.step m e = some (m', out'))
    (hunbroken : Along Journal.next Unbroken m₀ .empty (es ++ [e])) :
    (m.call = .idle → OneStream isn (remember Journal.next m₀ .empty es).reported
      (remember Journal.next m₀ .empty es).placed) ∧
    Advanced m e m' out' (Journal.next m e out' (remember Journal.next m₀ .empty es)) := by
  obtain ⟨hes, he⟩ := hunbroken.split hrun
  have hflow : Flow isn m (remember Journal.next m₀ .empty es) :=
    run_induction (Flow isn) (fun hinv hcond hs => (hinv.step hcond (step_sends hcond.sameConn hs)).1)
      hopens.flow hrun hes
  refine ⟨fun hcall => ?_, (hflow.step he (step_sends he.sameConn hstep)).2⟩
  have hstream := hflow.stream
  rw [hcall] at hstream
  simpa [underWay] using hstream

end Steps

section Trial

theorem run_unbroken_send : ∃ m out m' out', run (trialEstablished 0) trialSend = some (m, out) ∧
    step m .poll = some (m', out') ∧ result out' = some 1 ∧ (m.call = .idle → OneStream 0
      (remember Journal.next (trialEstablished 0) .empty trialSend).reported
      (remember Journal.next (trialEstablished 0) .empty trialSend).placed) ∧ Advanced m .poll m' out'
      (Journal.next m .poll out' (remember Journal.next (trialEstablished 0) .empty trialSend)) := by
  have hrun : run (trialEstablished 0) trialSend = some _ := rfl
  refine ⟨_, _, _, _, hrun, rfl, rfl, run_unbroken (e := .poll) ?_ hrun rfl ?_⟩
  · exact .passive rfl (.inr rfl) rfl
  · have hlength : [(65 : UInt8)].length < 2 ^ 31 := by decide
    refine ⟨hlength, fun m₁ out₁ h₁ => ?_⟩
    cases h₁
    refine ⟨trivial, fun m₂ out₂ h₂ => ?_⟩
    cases h₂
    refine ⟨fun _ htakes => absurd htakes.2.1 (by decide), fun m₃ out₃ h₃ => ?_⟩
    cases h₃
    exact ⟨nofun, fun _ _ _ => trivial⟩

def trialGivenUp : List Event :=
  [.send [65], .transmitted true, .timeout true, .timeout true, .timeout true, .timeout true]

theorem unbroken_timeout_fails : ¬ ∀ isn m₀ es e m m' out out', Opens isn m₀ →
    run m₀ es = some (m, out) → step m e = some (m', out') → (es ++ [e]).all Event.sameConn = true →
    (m.call = .idle → OneStream isn (remember Journal.next m₀ .empty es).reported
      (remember Journal.next m₀ .empty es).placed) ∧
    Advanced m e m' out' (Journal.next m e out' (remember Journal.next m₀ .empty es)) := by
  intro h
  obtain ⟨-, hadvanced⟩ := h 0 (trialEstablished 0) trialGivenUp (.timeout true) _ _ _ _
    (.passive rfl (.inr rfl) rfl) rfl rfl rfl
  have hseq := hadvanced [65] 0 rfl rfl
  revert hseq
  decide

end Trial

end JexOs.Tcp
