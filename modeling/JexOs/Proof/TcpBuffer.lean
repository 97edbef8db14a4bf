import JexOs.Proof.TcpReceive
import JexOs.Lib.Shift

/-!
# The receive buffer as an array

A payload is copied behind what is there, and what is left after a call moves to the front. The bytes below
`rx_len` are the list of bytes that the connection has in the rest of the development.
-/

namespace JexOs.Tcp

open ByteMem List

structure RxBuffer where
  rxBuf : Mem
  rxLen : UInt32

def RxBuffer.contents (rx : RxBuffer) : List UInt8 := bytesOf rx.rxBuf rx.rxLen.toNat

/-- The data of a segment that is in order. -/
def storeData (seg : Segment) (rx : RxBuffer) : RxBuffer :=
  let size := UInt32.ofNat tcpRxBufSize
  let rxLen := if rx.rxLen > size then size else rx.rxLen
  let copy := copyLen rxLen seg.payloadLen
  { rxBuf := blit rx.rxBuf rxLen.toNat copy.toNat seg.payload
    rxLen := rxLen + copy }

/-- `tcp_receive`: the bytes copied, as many as it returns, and the buffer after it. -/
def takeData (bufLen : UInt32) (rx : RxBuffer) : List UInt8 × RxBuffer :=
  if rx.rxLen = 0 then ([], rx)
  else
    let copy := if rx.rxLen > bufLen then bufLen else rx.rxLen
    let rest := rx.rxLen - copy
    (bytesOf rx.rxBuf copy.toNat,
      { rxBuf := Shift.close copy.toNat rest.toNat 0 rx.rxBuf
        rxLen := rest })

structure Endpoint where
  conn : Conn
  rx : RxBuffer

inductive RxEvent where
  | segment (ticks : UInt32) (seg : Segment)
  | receive (bufLen : UInt32)

def Appends (c : Conn) (seg : Segment) : Prop := Handled c seg ∧ InOrder c seg

instance (c : Conn) (seg : Segment) : Decidable (Appends c seg) := inferInstanceAs (Decidable (_ ∧ _))

def rxStep (e : Endpoint) : RxEvent → Endpoint × List UInt8
  | .segment ticks seg =>
    ({ conn := (handleSegment ticks seg e.conn).1
       rx := if Appends e.conn seg then storeData seg e.rx else e.rx }, [])
  | .receive bufLen =>
    let (bytes, rx) := takeData bufLen e.rx
    ({ conn := (tcpReceive bufLen.toNat e.conn).2
       rx := rx }, bytes)

/-- A queue of at most `tcpRxBufSize` bytes. -/
def queueStep (q : List UInt8) : RxEvent → List UInt8 × List UInt8
  | .segment _ seg => (q ++ bytesOf seg.payload (min seg.payloadLen.toNat (tcpRxBufSize - q.length)), [])
  | .receive bufLen => (q.drop bufLen.toNat, q.take bufLen.toNat)

/-- The state after a run, and what each event has returned. -/
def outcome {σ : Type} (step : σ → RxEvent → σ × List UInt8) : σ → List RxEvent → σ × List (List UInt8)
  | s, [] => (s, [])
  | s, ev :: evs =>
    let (s, bytes) := step s ev
    let (s, rest) := outcome step s evs
    (s, bytes :: rest)

/-- The step on the list of the connection. -/
def connStep (c : Conn) : RxEvent → Conn × List UInt8
  | .segment ticks seg => ((handleSegment ticks seg c).1, [])
  | .receive bufLen => ((tcpReceive bufLen.toNat c).2, (tcpReceive bufLen.toNat c).1)

def AllAppend : Endpoint → List RxEvent → Prop
  | _, [] => True
  | e, ev :: evs =>
    (∀ ticks seg, ev = .segment ticks seg → Appends e.conn seg) ∧ AllAppend (rxStep e ev).1 evs

section Buffer

variable {rx : RxBuffer} {e : Endpoint}

theorem toNat_rxBufSize : (UInt32.ofNat tcpRxBufSize).toNat = tcpRxBufSize := rfl

theorem toNat_copyLen {rxLen : UInt32} (payloadLen : UInt32) (h : rxLen.toNat ≤ tcpRxBufSize) :
    (copyLen rxLen payloadLen).toNat = min payloadLen.toNat (tcpRxBufSize - rxLen.toNat) := by
  have hsize := toNat_rxBufSize
  have hvalue : tcpRxBufSize = 4096 := rfl
  have hpayload := payloadLen.toNat_lt
  unfold copyLen
  split
  all_goals
    rename_i hfull
    rw [gt_iff_lt, UInt32.lt_iff_toNat_lt, UInt32.lt_iff_toNat_lt, UInt32.toNat_add, hsize] at hfull
  · rw [UInt32.toNat_sub_of_le _ _ (UInt32.le_iff_toNat_le.mpr h), hsize]
    omega
  · omega

theorem storeData_contents (seg : Segment) (h : rx.rxLen.toNat ≤ tcpRxBufSize) :
    (storeData seg rx).rxLen.toNat ≤ tcpRxBufSize ∧ (storeData seg rx).contents = rx.contents ++
      bytesOf seg.payload (min seg.payloadLen.toNat (tcpRxBufSize - rx.rxLen.toNat)) := by
  have hfits : ¬ rx.rxLen > UInt32.ofNat tcpRxBufSize := fun hlt =>
    not_lt.mpr h (UInt32.lt_iff_toNat_lt.mp hlt)
  have hcopy := toNat_copyLen seg.payloadLen h
  have hvalue : tcpRxBufSize = 4096 := rfl
  have hsum : (rx.rxLen + copyLen rx.rxLen seg.payloadLen).toNat =
      rx.rxLen.toNat + (copyLen rx.rxLen seg.payloadLen).toNat := by
    rw [UInt32.toNat_add]
    omega
  simp only [storeData, if_neg hfits]
  refine ⟨by omega, ?_⟩
  rw [← hcopy]
  unfold RxBuffer.contents
  rw [hsum]
  refine (Shift.listed_add _ _ _).trans ?_
  congr 1
  · exact Shift.listed_congr fun k hk => blit_of_lt hk
  · exact Shift.listed_congr fun k hk => blit_add hk

theorem takeData_contents (bufLen : UInt32) (h : rx.rxLen.toNat ≤ tcpRxBufSize) :
    (takeData bufLen rx).2.rxLen.toNat ≤ tcpRxBufSize ∧
    (takeData bufLen rx).2.contents = rx.contents.drop bufLen.toNat ∧
    (takeData bufLen rx).1 = rx.contents.take bufLen.toNat := by
  have hlength : rx.contents.length = rx.rxLen.toNat := Shift.length_listed
  unfold takeData
  by_cases hzero : rx.rxLen = 0
  · have hempty : rx.contents = [] := by
      rw [← length_eq_zero_iff, hlength, hzero]
      rfl
    rw [if_pos hzero, hempty]
    exact ⟨h, drop_nil.symm, take_nil.symm⟩
  · rw [if_neg hzero]
    obtain ⟨copy, hdef, hcopy⟩ : ∃ copy, (if rx.rxLen > bufLen then bufLen else rx.rxLen) = copy ∧
        copy.toNat = min bufLen.toNat rx.rxLen.toNat := by
      refine ⟨_, rfl, ?_⟩
      split
      all_goals
        rename_i hlt
        rw [gt_iff_lt, UInt32.lt_iff_toNat_lt] at hlt
        omega
    have hle : copy ≤ rx.rxLen := UInt32.le_iff_toNat_le.mpr (by omega)
    have hrest : (rx.rxLen - copy).toNat = rx.rxLen.toNat - copy.toNat := UInt32.toNat_sub_of_le _ _ hle
    have hwhole : copy.toNat + (rx.rxLen.toNat - copy.toNat) = rx.rxLen.toNat := by omega
    dsimp only
    rw [hdef]
    refine ⟨by omega, ?_, ?_⟩
    · calc bytesOf (Shift.close copy.toNat (rx.rxLen - copy).toNat 0 rx.rxBuf) (rx.rxLen - copy).toNat
        _ = rx.contents.drop copy.toNat := by
            rw [hrest]
            refine Shift.listed_close_zero.trans ?_
            rw [hwhole]
            rfl
        _ = rx.contents.drop bufLen.toNat := by
            rw [hcopy, ← hlength]
            exact drop_eq_drop_min.symm
    · calc bytesOf rx.rxBuf copy.toNat = rx.contents.take copy.toNat := by
            refine Eq.trans ?_ Shift.take_listed.symm
            rw [Nat.min_eq_left (by omega)]
            rfl
        _ = rx.contents.take bufLen.toNat := by
            rw [hcopy, ← hlength]
            exact take_eq_take_min.symm

theorem rxStep_queue (ev : RxEvent) (h : e.rx.rxLen.toNat ≤ tcpRxBufSize)
    (happend : ∀ ticks seg, ev = .segment ticks seg → Appends e.conn seg) :
    (rxStep e ev).1.rx.rxLen.toNat ≤ tcpRxBufSize ∧
    (rxStep e ev).1.rx.contents = (queueStep e.rx.contents ev).1 ∧
    (rxStep e ev).2 = (queueStep e.rx.contents ev).2 := by
  cases ev with
  | segment ticks seg =>
    have hlength : e.rx.contents.length = e.rx.rxLen.toNat := Shift.length_listed
    simp only [rxStep, queueStep, if_pos (happend ticks seg rfl), hlength, and_true]
    exact storeData_contents seg h
  | receive bufLen => exact takeData_contents bufLen h

theorem handleSegment_rxBuf (ticks : UInt32) (seg : Segment) (c : Conn) :
    (handleSegment ticks seg c).1.rxBuf = if Appends c seg then (onData seg c).1.rxBuf else c.rxBuf := by
  by_cases hhandled : Handled c seg
  · rw [handleSegment_of_handled ticks hhandled, (onSegment_received seg c).rxBuf]
    by_cases horder : InOrder c seg
    · rw [if_pos ⟨hhandled, horder⟩]
    · rw [if_neg fun h => horder h.2, onData_of_not_inOrder horder]
  · rw [if_neg fun h => hhandled h.1]
    rcases handleSegment_of_not_handled ticks hhandled with h | ⟨-, h⟩ | ⟨-, h⟩ | ⟨-, -, h⟩
    · rw [h]
    · rw [h, onListen]
      split <;> rfl
    · rw [h, onSynRcvd]
      split <;> rfl
    · rw [h, onSynAck]
      split <;> rfl

theorem rxStep_conn (ev : RxEvent) (h : e.rx.rxLen.toNat ≤ tcpRxBufSize)
    (hsame : e.conn.rxBuf = e.rx.contents) :
    ((rxStep e ev).1.rx.rxLen.toNat ≤ tcpRxBufSize ∧
      (rxStep e ev).1.conn.rxBuf = (rxStep e ev).1.rx.contents) ∧
      (rxStep e ev).1.conn = (connStep e.conn ev).1 ∧ (rxStep e ev).2 = (connStep e.conn ev).2 := by
  cases ev with
  | segment ticks seg =>
    refine ⟨?_, rfl, rfl⟩
    simp only [rxStep, handleSegment_rxBuf]
    by_cases happend : Appends e.conn seg
    · have htake : e.rx.contents.take tcpRxBufSize = e.rx.contents :=
        take_of_length_le (Shift.length_listed.trans_le h)
      have hlength : e.rx.contents.length = e.rx.rxLen.toNat := Shift.length_listed
      rw [if_pos happend, if_pos happend, onData_of_inOrder happend.2, (storeData_contents seg h).2, hsame,
        htake, hlength, UInt32.ofNat_toNat, toNat_copyLen _ h]
      exact ⟨(storeData_contents seg h).1, rfl⟩
    · rw [if_neg happend, if_neg happend]
      exact ⟨h, hsame⟩
  | receive bufLen =>
    obtain ⟨hfits, hcontents, hbytes⟩ := takeData_contents bufLen h
    refine ⟨⟨hfits, Eq.trans ?_ hcontents.symm⟩, rfl, hbytes.trans ?_⟩
    · exact congrArg _ hsame
    · exact congrArg _ hsame.symm

/-- **The array is the list.** Every run does to the connection and hands out what the list does, whatever arrives. -/
theorem outcome_conn (evs : List RxEvent) (h : e.rx.rxLen.toNat ≤ tcpRxBufSize)
    (hsame : e.conn.rxBuf = e.rx.contents) :
    (outcome rxStep e evs).1.conn.rxBuf = (outcome rxStep e evs).1.rx.contents ∧
    (outcome rxStep e evs).1.conn = (outcome connStep e.conn evs).1 ∧
    (outcome rxStep e evs).2 = (outcome connStep e.conn evs).2 := by
  induction evs generalizing e with
  | nil => exact ⟨hsame, rfl, rfl⟩
  | cons ev evs ih =>
    obtain ⟨⟨hfits, hsame'⟩, hconn, hbytes⟩ := rxStep_conn ev h hsame
    obtain ⟨hlast, hconn', hbytes'⟩ := ih hfits hsame'
    rw [hconn] at hconn' hbytes'
    exact ⟨hlast, hconn', congr (congrArg _ hbytes) hbytes'⟩

/-- A run of segments in order and of calls is a run of the queue. -/
theorem outcome_queue {evs : List RxEvent} (h : e.rx.rxLen.toNat ≤ tcpRxBufSize) (hall : AllAppend e evs) :
    (outcome rxStep e evs).1.rx.rxLen.toNat ≤ tcpRxBufSize ∧
    (outcome rxStep e evs).1.rx.contents = (outcome queueStep e.rx.contents evs).1 ∧
    (outcome rxStep e evs).2 = (outcome queueStep e.rx.contents evs).2 := by
  induction evs generalizing e with
  | nil => exact ⟨h, rfl, rfl⟩
  | cons ev evs ih =>
    obtain ⟨hfits, hcontents, hbytes⟩ := rxStep_queue ev h hall.1
    obtain ⟨hfits', hcontents', hbytes'⟩ := ih hfits hall.2
    rw [hcontents] at hcontents' hbytes'
    exact ⟨hfits', hcontents', congr (congrArg _ hbytes) hbytes'⟩

end Buffer

def almostFull : Endpoint :=
  { conn :=
      { initial with
        state := .established
        remoteIp := 1
        remotePort := 80
        localPort := 40000
        myAck := 7 }
    rx :=
      { rxBuf := fun _ => 65
        rxLen := 4094 } }

def overflowing : List RxEvent :=
  [.segment 0 (trialSegment tcpAck 7 0 [66, 67, 68]), .receive 4095, .receive 8]

theorem outcome_queue_almostFull : (outcome rxStep almostFull overflowing).1.rx.rxLen.toNat ≤ tcpRxBufSize ∧
    (outcome rxStep almostFull overflowing).1.rx.contents =
      (outcome queueStep almostFull.rx.contents overflowing).1 ∧
    (outcome rxStep almostFull overflowing).2 = (outcome queueStep almostFull.rx.contents overflowing).2 := by
  refine outcome_queue (by decide) ⟨?_, nofun, nofun, trivial⟩
  intro ticks seg h
  cases h
  decide

/-- The same, from two bytes on. -/
theorem outcome_conn_overflowing : (outcome rxStep
      { conn := { almostFull.conn with rxBuf := [65, 65] }, rx := { rxBuf := fun _ => 65, rxLen := 2 } }
      overflowing).2 =
    (outcome connStep { almostFull.conn with rxBuf := [65, 65] } overflowing).2 :=
  (outcome_conn overflowing (by decide) rfl).2.2

end JexOs.Tcp
