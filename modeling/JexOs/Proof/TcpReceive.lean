import JexOs.Tcp

/-!
# Receiving

What the segment handler does to the receive buffer and to the number it acknowledges, over runs in
which segments arrive between the steps of the calls.
-/

namespace JexOs.Tcp

open ByteMem List Option

section Segments

variable {c : Conn} {seg : Segment}

/-- The segment is handed on to the part behind the handshake. -/
def Handled (c : Conn) (seg : Segment) : Prop :=
  accepts c seg = true ∧ c.state ≠ .listen ∧ ¬ (c.state = .synRcvd ∧ seg.has tcpAck = true) ∧
    ¬ (seg.has tcpSyn = true ∧ seg.has tcpAck = true)

instance (c : Conn) (seg : Segment) : Decidable (Handled c seg) := inferInstanceAs (Decidable (_ ∧ _))

def InOrder (c : Conn) (seg : Segment) : Prop :=
  seg.payloadLen > 0 ∧ (seg.has tcpPsh = true ∨ seg.has tcpAck = true) ∧ seg.seq = c.myAck

instance (c : Conn) (seg : Segment) : Decidable (InOrder c seg) := inferInstanceAs (Decidable (_ ∧ _))

theorem handleSegment_of_handled (ticks : UInt32) (h : Handled c seg) :
    handleSegment ticks seg c = onSegment seg c := by
  obtain ⟨haccepts, hlisten, hrcvd, hsyn⟩ := h
  unfold handleSegment
  rw [haccepts, if_neg (by decide), if_neg hlisten, if_neg hrcvd, if_neg hsyn]

theorem handleSegment_of_not_handled (ticks : UInt32) (h : ¬ Handled c seg) :
    (handleSegment ticks seg c).1 = c ∨
    (c.state = .listen ∧ (handleSegment ticks seg c).1 = (onListen ticks seg c).1) ∨
    (c.state = .synRcvd ∧ (handleSegment ticks seg c).1 = onSynRcvd seg c) ∨
    (seg.has tcpSyn = true ∧ seg.has tcpAck = true ∧ (handleSegment ticks seg c).1 = (onSynAck seg c).1) := by
  unfold handleSegment
  by_cases haccepts : accepts c seg = true
  · rw [haccepts, if_neg (by decide)]
    split
    · exact .inr (.inl ⟨‹_›, rfl⟩)
    · split
      · exact .inr (.inr (.inl ⟨(‹_ ∧ _› : _ ∧ _).1, rfl⟩))
      · split
        · rename_i hsyn
          exact .inr (.inr (.inr ⟨hsyn.1, hsyn.2, rfl⟩))
        · exact absurd ⟨haccepts, ‹_›, ‹_›, ‹_›⟩ h
  · rw [Bool.eq_false_iff.mpr haccepts, if_pos (by decide)]
    exact .inl rfl

theorem onData_of_not_inOrder (h : ¬ InOrder c seg) : (onData seg c).1 = c := by
  unfold onData
  split
  · rename_i hdata
    rw [if_neg fun hseq => h ⟨hdata.1, hdata.2, hseq⟩]
  · rfl

theorem onData_of_inOrder (h : InOrder c seg) : (onData seg c).1 =
    { c with
      rxBuf := c.rxBuf.take tcpRxBufSize ++ bytesOf seg.payload
        (copyLen (UInt32.ofNat (c.rxBuf.take tcpRxBufSize).length) seg.payloadLen).toNat
      myAck := c.myAck + seg.payloadLen } := by
  unfold onData
  rw [if_pos ⟨h.1, h.2.1⟩, if_pos h.2.2]

theorem onData_state (seg : Segment) (c : Conn) : (onData seg c).1.state = c.state := by
  by_cases h : InOrder c seg
  · rw [onData_of_inOrder h]
  · rw [onData_of_not_inOrder h]

def Ending (state : TcpState) : Prop :=
  state = .finWait2 ∨ state = .timeWait ∨ state = .lastAck ∨ state = .closed

instance (state : TcpState) : Decidable (Ending state) := inferInstanceAs (Decidable (_ ∨ _))

theorem ending_closed : Ending .closed := by decide
theorem ending_lastAck : Ending .lastAck := by decide
theorem ending_timeWait : Ending .timeWait := by decide

theorem ackState_eq (state : TcpState) (covers : Bool) :
    ackState state covers = state ∨ Ending (ackState state covers) := by
  cases state <;> cases covers <;> decide

theorem onFin_state (seg : Segment)
    (c : Conn) : (onFin seg c).1.state = c.state ∨ Ending (onFin seg c).1.state := by
  unfold onFin
  dsimp only
  split
  · exact .inr ending_lastAck
  · split
    · exact .inr ending_timeWait
    · exact .inl rfl

/-- What a segment changes behind the handshake, as far as the receiving side goes. -/
structure Received (seg : Segment) (c c' : Conn) : Prop where
  state : c'.state = c.state ∨ Ending c'.state
  rxBuf : c'.rxBuf = (onData seg c).1.rxBuf
  myAck : c'.myAck = if seg.has tcpFin then seg.seq + seg.payloadLen + 1 else (onData seg c).1.myAck
  peerIsn : c'.peerIsn = c.peerIsn

theorem onFin_received (seg : Segment) (c : Conn) : (onFin seg c).1.rxBuf = c.rxBuf ∧
    (onFin seg c).1.myAck = seg.seq + seg.payloadLen + 1 ∧ (onFin seg c).1.peerIsn = c.peerIsn := by
  unfold onFin
  dsimp only
  split
  · exact ⟨rfl, rfl, rfl⟩
  · split <;> exact ⟨rfl, rfl, rfl⟩

theorem onData_peerIsn (seg : Segment) (c : Conn) : (onData seg c).1.peerIsn = c.peerIsn := by
  by_cases h : InOrder c seg
  · rw [onData_of_inOrder h]
  · rw [onData_of_not_inOrder h]

theorem onSegment_received (seg : Segment) (c : Conn) : Received seg c (onSegment seg c).1 := by
  -- an acknowledgement leaves what the data is compared with
  obtain ⟨c₁, hc₁, hstate, hdata⟩ : ∃ c₁, (if seg.has tcpAck then onAck seg c else c) = c₁ ∧
      (c₁.state = c.state ∨ Ending c₁.state) ∧
      (onData seg c₁).1.rxBuf = (onData seg c).1.rxBuf ∧
      (onData seg c₁).1.myAck = (onData seg c).1.myAck ∧
      (onData seg c₁).1.peerIsn = (onData seg c).1.peerIsn := by
    by_cases hack : seg.has tcpAck = true
    · refine ⟨onAck seg c, if_pos hack, ackState_eq _ _, ?_⟩
      have hsame : InOrder (onAck seg c) seg ↔ InOrder c seg := Iff.rfl
      by_cases h : InOrder c seg
      · rw [onData_of_inOrder h, onData_of_inOrder (hsame.mpr h)]
        exact ⟨rfl, rfl, rfl⟩
      · rw [onData_of_not_inOrder h, onData_of_not_inOrder (hsame.not.mpr h)]
        exact ⟨rfl, rfl, rfl⟩
    · exact ⟨c, if_neg hack, .inl rfl, rfl, rfl, rfl⟩
  obtain ⟨hrx, hack, hisn⟩ := hdata
  have hstate₂ : (onData seg c₁).1.state = c.state ∨ Ending (onData seg c₁).1.state := by
    rw [onData_state]
    exact hstate
  have hfin := onFin_received seg (onData seg c₁).1
  have hfinState := onFin_state seg (onData seg c₁).1
  have hisn' : (onData seg c₁).1.peerIsn = c.peerIsn := hisn.trans (onData_peerIsn seg c)
  unfold onSegment
  simp only [hc₁]
  by_cases hflag : seg.has tcpFin = true
  · exact
      { state := by
          split
          · exact .inr ending_closed
          · rcases hfinState with h | h
            · rw [h]
              exact hstate₂
            · exact .inr h
        rxBuf := by split <;> exact hfin.1.trans hrx
        myAck := by
          split <;> exact hfin.2.1
        peerIsn := by split <;> exact hfin.2.2.trans hisn' }
  · have hno : ¬ seg.has tcpFin = true := hflag
    exact
      { state := by
          split
          · exact .inr ending_closed
          · exact hstate₂
        rxBuf := by split <;> exact hrx
        myAck := by
          split <;> exact hack
        peerIsn := by split <;> exact hisn' }

end Segments

def receivedBytes (out : List Output) : List UInt8 :=
  out.flatMap fun
    | .received bytes => bytes
    | _ => []

section Runs

variable {G : Type} {upd : Machine → Event → List Output → G → G}
  {P : Machine → G → Event → Prop} {m m' : Machine} {g : G} {es : List Event} {e : Event}
  {out : List Output}

def remember (upd : Machine → Event → List Output → G → G) : Machine → G → List Event → G
  | _, g, [] => g
  | m, g, e :: es =>
    match step m e with
    | none => g
    | some (m', out) => remember upd m' (upd m e out g) es

/-- Every step of the run meets the condition, which may look at what is kept in mind. -/
def Along (upd : Machine → Event → List Output → G → G) (P : Machine → G → Event → Prop) :
    Machine → G → List Event → Prop
  | _, _, [] => True
  | m, g, e :: es =>
    P m g e ∧ ∀ m' out, step m e = some (m', out) → Along upd P m' (upd m e out g) es

theorem run_cons (h : run m (e :: es) = some (m', out)) : ∃ m₁ out₁ out₂,
    step m e = some (m₁, out₁) ∧ run m₁ es = some (m', out₂) ∧ out = out₁ ++ out₂ := by
  obtain ⟨⟨m₁, out₁⟩, hfirst, hrest⟩ := bind_eq_some_iff.mp h
  obtain ⟨⟨m₂, out₂⟩, hsecond, heq⟩ := bind_eq_some_iff.mp hrest
  cases heq
  exact ⟨m₁, out₁, out₂, hfirst, hsecond, rfl⟩

theorem remember_cons {m₁ : Machine} {out₁ : List Output} (h : step m e = some (m₁, out₁)) :
    remember upd m g (e :: es) = remember upd m₁ (upd m e out₁ g) es := by
  rw [remember, h]

theorem run_induction (Inv : Machine → G → Prop)
    (hstep : ∀ {m g e m' out}, Inv m g → P m g e → step m e = some (m', out) → Inv m' (upd m e out g))
    (hinv : Inv m g) (hrun : run m es = some (m', out)) (halong : Along upd P m g es) :
    Inv m' (remember upd m g es) := by
  induction es generalizing m g out with
  | nil =>
    cases hrun
    exact hinv
  | cons e es ih =>
    obtain ⟨m₁, out₁, out₂, hfirst, hrest, -⟩ := run_cons hrun
    rw [remember_cons hfirst]
    exact ih (hstep hinv halong.1 hfirst) hrest (halong.2 m₁ out₁ hfirst)

theorem Along.and {Q : Machine → G → Event → Prop} (h : Along upd P m g es)
    (h' : Along upd Q m g es) : Along upd (fun m g e => P m g e ∧ Q m g e) m g es := by
  induction es generalizing m g with
  | nil => exact trivial
  | cons e es ih =>
    exact ⟨⟨h.1, h'.1⟩, fun m₁ out₁ hstep => ih (h.2 m₁ out₁ hstep) (h'.2 m₁ out₁ hstep)⟩

theorem Along.split (h : Along upd P m g (es ++ [e])) (hrun : run m es = some (m', out)) :
    Along upd P m g es ∧ P m' (remember upd m g es) e := by
  induction es generalizing m g out with
  | nil =>
    cases hrun
    exact ⟨trivial, h.1⟩
  | cons e' es ih =>
    obtain ⟨m₁, out₁, out₂, hfirst, hrest, -⟩ := run_cons hrun
    obtain ⟨hes, he⟩ := ih (h.2 m₁ out₁ hfirst) hrest
    rw [remember_cons hfirst]
    refine ⟨⟨h.1, fun m₂ out₂ hstep => ?_⟩, he⟩
    rw [hfirst] at hstep
    cases hstep
    exact hes

end Runs

structure Aside (c c' : Conn) (out : List Output) : Prop where
  state : c'.state = c.state ∨ c'.state = .closed ∨ c'.state = .finWait1
  eq : c' = { c with mySeq := c'.mySeq, state := c'.state }
  out : receivedBytes out = []

theorem receivedBytes_onWire (ok : Bool) (segment : Sent) : receivedBytes (onWire ok segment) = [] := by
  cases ok <;> rfl

theorem receivedBytes_append (out out' : List Output) :
    receivedBytes (out ++ out') = receivedBytes out ++ receivedBytes out' := flatMap_append

theorem receivedBytes_sent (segments : List Sent) : receivedBytes (segments.map .sent) = [] := by
  induction segments with
  | nil => rfl
  | cons segment segments ih => exact ih

theorem tcpAbort_aside (c : Conn) : Aside c (tcpAbort c).1 (tcpAbort c).2 := by
  unfold tcpAbort
  split
  · exact ⟨.inl rfl, rfl, rfl⟩
  · exact ⟨.inr (.inl rfl), rfl, rfl⟩

section Steps

variable {m m' : Machine} {out : List Output}

theorem afterTransmit_aside {ok : Bool} (h : afterTransmit ok m = some (m', out)) :
    Aside m.conn m'.conn out := by
  unfold afterTransmit at h
  split at h
  · split at h <;> cases h
    · exact ⟨.inl rfl, rfl, rfl⟩
    · exact ⟨.inr (.inl rfl), rfl, rfl⟩
  · split at h <;> cases h
    · exact ⟨.inl rfl, rfl, rfl⟩
    · exact ⟨.inl rfl, rfl, rfl⟩
  · cases h
    exact ⟨.inl rfl, rfl, receivedBytes_onWire _ _⟩
  · cases h

theorem sendNext_received (c : Conn) (data : List UInt8) (sent : Nat) :
    receivedBytes (sendNext c data sent).2 = [] := by
  unfold sendNext
  split <;> rfl

theorem tcpSend_received (data : List UInt8) (c : Conn) : receivedBytes (tcpSend data c).2 = [] := by
  unfold tcpSend
  split
  · rfl
  · exact sendNext_received _ _ _

theorem afterPoll_aside (h : afterPoll m = some (m', out)) : Aside m.conn m'.conn out := by
  unfold afterPoll at h
  dsimp only at h
  split at h
  · split at h
    · cases h
      exact ⟨.inl rfl, rfl, rfl⟩
    · split at h <;> cases h <;> exact ⟨.inl rfl, rfl, rfl⟩
  · split at h
    · cases h
      exact ⟨.inl rfl, rfl, sendNext_received _ _ _⟩
    · split at h <;> cases h <;> exact ⟨.inl rfl, rfl, rfl⟩
  · split at h
    · cases h
      exact ⟨.inr (.inl rfl), rfl, rfl⟩
    · split at h <;> cases h <;> exact ⟨.inl rfl, rfl, rfl⟩
  · split at h <;> cases h
    · exact ⟨.inr (.inl rfl), rfl, rfl⟩
    · exact ⟨.inl rfl, rfl, rfl⟩
  · split at h <;> cases h <;> exact ⟨.inl rfl, rfl, rfl⟩
  · cases h

theorem afterTimeout_aside {ok : Bool} (h : afterTimeout ok m = some (m', out)) :
    Aside m.conn m'.conn out := by
  have habort := tcpAbort_aside m.conn
  unfold afterTimeout at h
  dsimp only at h
  split at h
  · split at h <;> cases h
    · exact ⟨.inl rfl, rfl, receivedBytes_onWire _ _⟩
    · refine ⟨.inr (.inl rfl), rfl, ?_⟩
      rw [receivedBytes_append, receivedBytes_onWire]
      rfl
  · split at h <;> cases h
    · exact ⟨.inl rfl, rfl, receivedBytes_onWire _ _⟩
    · refine ⟨.inl rfl, rfl, ?_⟩
      rw [receivedBytes_append, receivedBytes_onWire]
      rfl
  · split at h <;> cases h
    · exact ⟨.inl rfl, rfl, receivedBytes_onWire _ _⟩
    · refine ⟨habort.state, habort.eq, ?_⟩
      rw [receivedBytes_append, receivedBytes_append, receivedBytes_onWire, habort.out]
      rfl
  · cases h
    refine ⟨habort.state, habort.eq, ?_⟩
    rw [receivedBytes_append, habort.out]
    rfl
  · cases h
    refine ⟨habort.state, habort.eq, ?_⟩
    rw [receivedBytes_append, habort.out]
    rfl
  · cases h

theorem step_cases {e : Event} (h : step m e = some (m', out)) :
    (∃ ticks seg, e = .arrive ticks seg ∧ m' = { m with conn := (handleSegment ticks seg m.conn).1 } ∧
      out = (handleSegment ticks seg m.conn).2.map .sent) ∨
    (∃ n, e = .receive n ∧ m' = { m with conn := { m.conn with rxBuf := m.conn.rxBuf.drop n } } ∧
      out = [.received (m.conn.rxBuf.take n)]) ∨
    (∃ port, e = .listen port ∧ m' = { m with conn := (tcpListen port m.conn).1 } ∧
      receivedBytes out = []) ∨
    (∃ ip port src ticks, e = .connect ip port src ticks ∧
      m' = { conn := (tcpConnect ip port src ticks m.conn).1, call := .opening } ∧
      receivedBytes out = []) ∨
    (Aside m.conn m'.conn out ∧ ∀ ticks seg, e ≠ .arrive ticks seg) := by
  have habort := tcpAbort_aside m.conn
  unfold step at h
  split at h
  · cases h
    exact .inl ⟨_, _, rfl, rfl, rfl⟩
  · exact .inr (.inr (.inr (.inr ⟨afterTransmit_aside h, nofun⟩)))
  · exact .inr (.inr (.inr (.inr ⟨afterPoll_aside h, nofun⟩)))
  · exact .inr (.inr (.inr (.inr ⟨afterTimeout_aside h, nofun⟩)))
  · split at h
    · unfold startCall at h
      split at h
      · cases h
        exact .inr (.inl ⟨_, rfl, rfl, rfl⟩)
      · cases h
        refine .inr (.inr (.inl ⟨_, rfl, rfl, ?_⟩))
        show receivedBytes ((tcpAbort m.conn).2 ++ _) = []
        rw [receivedBytes_append, habort.out]
        rfl
      · cases h
        exact .inr (.inr (.inr (.inl ⟨_, _, _, _, rfl, rfl, habort.out⟩)))
      · cases h
        exact .inr (.inr (.inr (.inr ⟨⟨.inl rfl, rfl, tcpSend_received _ _⟩, nofun⟩)))
      · dsimp only at h
        refine .inr (.inr (.inr (.inr ⟨?_, nofun⟩)))
        split at h
        · cases h
          exact ⟨.inl rfl, rfl, rfl⟩
        · split at h <;> cases h
          · exact ⟨.inl rfl, rfl, rfl⟩
          · exact ⟨.inr (.inr rfl), rfl, rfl⟩
      · cases h
        exact .inr (.inr (.inr (.inr ⟨habort, nofun⟩)))
      · cases h
    · cases h

end Steps

/-- The states in which a connection is not there yet, and no `SYN` is waited for. -/
def Unopened (state : TcpState) : Prop := state = .closed ∨ state = .synSent ∨ state = .synRcvd

/-- What arrives before the connection is there carries no data at the number expected and no such `FIN`. -/
def Quiet (m : Machine) (_ : Unit) (e : Event) : Prop :=
  ∀ ticks seg, e = .arrive ticks seg → Unopened m.conn.state → Handled m.conn seg →
    ¬ InOrder m.conn seg ∧ (seg.has tcpFin = true → seg.seq + seg.payloadLen + 1 = m.conn.myAck)

def Answers (c : Conn) (seg : Segment) : Prop :=
  c.state = .synSent ∧ seg.has tcpSyn = true ∧ seg.has tcpAck = true ∧ seg.ack = c.mySeq

/-- Before the handshake is complete nothing is put into the receive buffer, and a new connection has the number
behind the peer's `SYN` and an empty buffer. -/
structure Gated (m : Machine) (e : Event) (m' : Machine) : Prop where
  arrival : ∀ ticks seg, e = .arrive ticks seg → Unopened m.conn.state →
    m'.conn.rxBuf = m.conn.rxBuf ∧ (m'.conn.myAck = m.conn.myAck ∨ Answers m.conn seg)
  established : m.conn.state ≠ .established → m'.conn.state = .established →
    m'.conn.myAck = m'.conn.peerIsn + 1 ∧ m'.conn.rxBuf = []

structure Opening (c : Conn) : Prop where
  empty : c.state = .listen ∨ c.state = .synSent ∨ c.state = .synRcvd → c.rxBuf = []
  answered : c.state = .synRcvd → c.myAck = c.peerIsn + 1

section Gating

variable {c : Conn} {seg : Segment}

theorem onListen_opening (ticks : UInt32) (seg : Segment) (h : Opening c) (hlisten : c.state = .listen) :
    Opening (onListen ticks seg c).1 ∧ (onListen ticks seg c).1.state ≠ .established := by
  unfold onListen
  split
  · exact ⟨⟨fun _ => h.empty (.inl hlisten), fun _ => rfl⟩, by simp⟩
  · refine ⟨h, ?_⟩
    rw [hlisten]
    decide

theorem handleSegment_opening (ticks : UInt32) (h : Opening c) (hquiet : Unopened c.state → Handled c seg →
      ¬ InOrder c seg ∧ (seg.has tcpFin = true → seg.seq + seg.payloadLen + 1 = c.myAck)) :
    Opening (handleSegment ticks seg c).1 ∧ (Unopened c.state → (handleSegment ticks seg c).1.rxBuf = c.rxBuf ∧
        ((handleSegment ticks seg c).1.myAck = c.myAck ∨ Answers c seg)) ∧
      (c.state ≠ .established → (handleSegment ticks seg c).1.state = .established →
        (handleSegment ticks seg c).1.myAck = (handleSegment ticks seg c).1.peerIsn + 1 ∧
          (handleSegment ticks seg c).1.rxBuf = []) := by
  by_cases hhandled : Handled c seg
  · rw [handleSegment_of_handled ticks hhandled]
    have hreceived := onSegment_received seg c
    have hkept : Unopened c.state → (onSegment seg c).1.rxBuf = c.rxBuf ∧
        (onSegment seg c).1.myAck = c.myAck := by
      intro hstate
      obtain ⟨horder, hfin⟩ := hquiet hstate hhandled
      refine ⟨by rw [hreceived.rxBuf, onData_of_not_inOrder horder], ?_⟩
      rw [hreceived.myAck]
      split
      · exact hfin ‹_›
      · rw [onData_of_not_inOrder horder]
    have hnew : ∀ {s}, ¬ Ending s → (onSegment seg c).1.state = s → c.state = s := by
      rintro s hs rfl
      rcases hreceived.state with hstate | hstate
      · exact hstate.symm
      · exact absurd hstate hs
    refine ⟨⟨?_, ?_⟩, fun hstate => ⟨(hkept hstate).1, .inl (hkept hstate).2⟩, ?_⟩
    · rintro (hstate | hstate | hstate)
      · exact absurd (hnew (by decide) hstate) hhandled.2.1
      · have hs := hnew (by decide) hstate
        rw [(hkept (.inr (.inl hs))).1]
        exact h.empty (.inr (.inl hs))
      · have hs := hnew (by decide) hstate
        rw [(hkept (.inr (.inr hs))).1]
        exact h.empty (.inr (.inr hs))
    · intro hstate
      have hs := hnew (by decide) hstate
      rw [(hkept (.inr (.inr hs))).2, hreceived.peerIsn]
      exact h.answered hs
    · intro hother hstate
      exact absurd (hnew (by decide) hstate) hother
  · rcases handleSegment_of_not_handled ticks hhandled with heq | ⟨hlisten, heq⟩ | ⟨hrcvd,
      heq⟩ | ⟨hsyn, hack, heq⟩
    · rw [heq]
      exact ⟨h, fun _ => ⟨rfl, .inl rfl⟩, fun hother hstate => absurd hstate hother⟩
    · obtain ⟨hopening, hstate⟩ := onListen_opening ticks seg h hlisten
      rw [heq]
      refine ⟨hopening, fun hunopened => ?_, fun _ h' => absurd h' hstate⟩
      rcases hunopened with h' | h' | h' <;> rw [hlisten] at h' <;> cases h'
    · rw [heq]
      unfold onSynRcvd
      split
      · refine ⟨⟨?_, ?_⟩, fun _ => ⟨rfl, .inl rfl⟩, fun _ _ => ?_⟩
        · rintro (h' | h' | h') <;> cases h'
        · rintro h'
          cases h'
        · exact ⟨h.answered hrcvd, h.empty (.inr (.inr hrcvd))⟩
      · exact ⟨h, fun _ => ⟨rfl, .inl rfl⟩, fun hother hstate => absurd hstate hother⟩
    · rw [heq]
      unfold onSynAck
      split
      · rename_i hanswer
        have hempty := h.empty (.inr (.inl hanswer.1))
        refine ⟨⟨?_, ?_⟩, fun _ => ⟨rfl, .inr ⟨hanswer.1, hsyn, hack, hanswer.2⟩⟩, fun _ _ => ?_⟩
        · rintro (h' | h' | h') <;> cases h'
        · rintro h'
          cases h'
        · exact ⟨rfl, hempty⟩
      · exact ⟨h, fun _ => ⟨rfl, .inl rfl⟩, fun hother hstate => absurd hstate hother⟩

theorem Opening.aside {c' : Conn} {out : List Output} (h : Opening c) (haside : Aside c c' out) :
    Opening c' ∧ (c.state ≠ .established → c'.state ≠ .established) := by
  have hrx : c'.rxBuf = c.rxBuf := by rw [haside.eq]
  have hack : c'.myAck = c.myAck := by rw [haside.eq]
  have hisn : c'.peerIsn = c.peerIsn := by rw [haside.eq]
  rcases haside.state with hstate | hstate | hstate
  · refine ⟨⟨fun h' => ?_, fun h' => ?_⟩, fun h' => by rwa [hstate]⟩
    · rw [hstate] at h'
      rw [hrx]
      exact h.empty h'
    · rw [hstate] at h'
      rw [hack, hisn]
      exact h.answered h'
  · refine ⟨⟨fun h' => ?_, fun h' => ?_⟩, fun _ => by rw [hstate]; decide⟩
    · rw [hstate] at h'
      rcases h' with h' | h' | h' <;> cases h'
    · rw [hstate] at h'
      cases h'
  · refine ⟨⟨fun h' => ?_, fun h' => ?_⟩, fun _ => by rw [hstate]; decide⟩
    · rw [hstate] at h'
      rcases h' with h' | h' | h' <;> cases h'
    · rw [hstate] at h'
      cases h'

theorem step_gated {m m' : Machine} {e : Event} {out : List Output}
    (h : Opening m.conn) (hquiet : Quiet m () e) (hstep : step m e = some (m', out)) :
    Opening m'.conn ∧ Gated m e m' := by
  rcases step_cases hstep with ⟨ticks, seg, rfl, rfl, -⟩ | ⟨n, rfl, rfl, -⟩ | ⟨port, rfl, rfl, -⟩ |
    ⟨ip, port, src, ticks, rfl, rfl, -⟩ | ⟨haside, hnot⟩
  · obtain ⟨hopening, harrival, hestablished⟩ := handleSegment_opening ticks h (hquiet ticks seg rfl)
    refine ⟨hopening, ⟨fun ticks' seg' heq => ?_, hestablished⟩⟩
    cases heq
    exact harrival
  · refine ⟨⟨fun h' => ?_, h.answered⟩, ⟨fun _ _ heq => ?_, fun hother h' => absurd h' hother⟩⟩
    · rw [h.empty h', drop_nil]
    · cases heq
  · refine ⟨⟨fun _ => rfl, fun h' => ?_⟩, ⟨fun _ _ heq => ?_, fun _ h' => ?_⟩⟩
    · cases h'
    · cases heq
    · cases h'
  · refine ⟨⟨fun _ => rfl, fun h' => ?_⟩, ⟨fun _ _ heq => ?_, fun _ h' => ?_⟩⟩
    · cases h'
    · cases heq
    · cases h'
  · obtain ⟨hopening, hstate⟩ := h.aside haside
    exact ⟨hopening, ⟨fun ticks seg heq => absurd heq (hnot ticks seg), fun hother h' =>
      absurd h' (hstate hother)⟩⟩

def forget (_ : Machine) (_ : Event) (_ : List Output) (_ : Unit) : Unit := ()

def boot : Machine :=
  { conn := initial
    call := .idle }

/-- In a run in which all that arrives too early is quiet, every step is gated. -/
theorem run_gated {es : List Event} {e : Event} {m m' : Machine} {out out' : List Output}
    (hrun : run boot es = some (m, out)) (hquiet : Along forget Quiet boot () (es ++ [e]))
    (hstep : step m e = some (m', out')) : Gated m e m' := by
  have hboot : Opening boot.conn := by
    refine ⟨?_, ?_⟩
    · rintro (h | h | h) <;> cases h
    · intro h
      cases h
  obtain ⟨hes, he⟩ := hquiet.split hrun
  have hopening : Opening m.conn :=
    run_induction (fun m _ => Opening m.conn)
      (fun hinv hq hs => (step_gated hinv hq hs).1) hboot hrun hes
  exact (step_gated hopening he hstep).2

end Gating

section Trial

def trialSegment (flags : UInt8) (seq ack : UInt32) (payload : List UInt8) : Segment :=
  { srcIp := 1
    srcPort := 80
    destPort := 40000
    seq := seq
    ack := ack
    flags := flags
    payloadLen := UInt32.ofNat payload.length
    payload := fun k => payload.getD k 0 }

/-- An active open up to its `SYN`, with initial sequence number `0xDEADBEEF`. -/
def trialOpen : List Event := [.connect 1 80 0 0, .transmitted true]

def trialAnswer : Segment := trialSegment (tcpSyn ||| tcpAck) 7 0xDEADBEF0 []

theorem run_gated_answer : ∃ m out m' out', run boot trialOpen = some (m, out) ∧
    step m (.arrive 0 trialAnswer) = some (m', out') ∧ Gated m (.arrive 0 trialAnswer) m' ∧
    m'.conn.state = .established := by
  have hrun : run boot trialOpen = some _ := rfl
  refine ⟨_, _, _, _, hrun, rfl, run_gated (e := .arrive 0 trialAnswer) hrun ?_ rfl, rfl⟩
  refine ⟨?_, fun m₁ out₁ h₁ => ?_⟩
  · intro ticks seg h
    cases h
  · cases h₁
    refine ⟨?_, fun m₂ out₂ h₂ => ?_⟩
    · intro ticks seg h
      cases h
    · cases h₂
      refine ⟨?_, fun _ _ _ => trivial⟩
      intro ticks seg h _ hhandled
      cases h
      exact absurd ⟨rfl, rfl⟩ hhandled.2.2.2

def trialEarly : Segment := trialSegment tcpAck 0 0 [65]

theorem gated_early_fails : ¬ ∀ es e m m' out out', run boot es = some (m, out) →
    step m e = some (m', out') → Gated m e m' := by
  intro h
  have hgated := h trialOpen (.arrive 0 trialEarly) _ _ _ _ rfl rfl
  have hkept := (hgated.arrival 0 trialEarly rfl (.inr (.inl rfl))).1
  revert hkept
  decide

end Trial

end JexOs.Tcp
