import JexOs.Rtl8139
import Mathlib.Data.List.TakeDrop

/-!
# Frames that are received

While no loop begins inside of another one, and nothing left in the ring looks like a header where the next frame
will be written, every frame is passed on once and in order.
-/

namespace JexOs.Rtl8139

open ByteMem Circular List Option

section Layout

variable {ring : Mem} {p q w : Nat} {f : Frame} {frames : List Frame}

/-- Unread frames lie one behind another, up to where the card writes. -/
def Layout (ring : Mem) : Nat → List Frame → Nat → Prop
  | p, [], w => p % rxBufSize = w
  | p, f :: rest, w =>
    Stored rxBufSize ring p (4 + f.data.length) f.byte ∧ Layout ring (p + f.room) rest w

theorem Frame.room_ge (f : Frame) : 4 + f.data.length ≤ f.room := by
  unfold Frame.room
  omega

theorem totalRoom_cons (f : Frame) (rest : List Frame) : totalRoom (f :: rest) = f.room + totalRoom rest := rfl

theorem layout_congr (h : p % rxBufSize = q % rxBufSize) :
    Layout ring p frames w ↔ Layout ring q frames w := by
  induction frames generalizing p q with
  | nil =>
    unfold Layout
    rw [h]
  | cons f rest ih =>
    unfold Layout
    rw [← stored_mod (p := p), h, stored_mod (p := q), ih (p := p + f.room) (q := q + f.room) (by
      rw [← Nat.mod_add_mod, h, Nat.mod_add_mod])]

theorem Layout.end_eq (h : Layout ring p frames w) : w = (p + totalRoom frames) % rxBufSize := by
  induction frames generalizing p with
  | nil => exact h.symm
  | cons f rest ih => rw [ih h.2, totalRoom_cons, Nat.add_assoc]

theorem Layout.write (h : Layout ring p frames w) (hfit : totalRoom frames + f.room ≤ rxBufSize) :
    Layout (put rxBufSize ring w (4 + f.data.length) f.byte) p (frames ++ [f]) ((w + f.room) % rxBufSize) := by
  have hroom := f.room_ge
  induction frames generalizing p with
  | nil =>
    have hw : p % rxBufSize = w := h
    have hlt : w < rxBufSize := hw ▸ Nat.mod_lt _ (by decide)
    refine ⟨?_, ?_⟩
    · rw [← stored_mod, hw]
      exact stored_put hlt (by omega)
    · show (p + f.room) % rxBufSize = _
      rw [← hw, Nat.mod_add_mod]
  | cons g rest ih =>
    have hend := h.end_eq
    have hroom' := g.room_ge
    rw [totalRoom_cons] at hend hfit
    exact ⟨h.1.put (d := g.room + totalRoom rest) (by omega) (by omega) hend, ih h.2 (by omega)⟩

/-! #### Reading a frame -/

variable (hstored : Stored rxBufSize ring p (4 + f.data.length) f.byte) (haligned : p % 4 = 0)
  (hp : p < rxBufSize) (hfit : f.room ≤ rxBufSize)
include hstored haligned hp

theorem header_byte {k : Nat} (hk : k < 4) : ring (p + k) = f.byte k := by
  rw [← hstored k (by omega)]
  unfold rxBufSize at hp ⊢
  rw [Nat.mod_eq_of_lt (by omega)]

theorem rxStatus_eq : rxStatus ring p = f.status.toNat := by
  refine load16_byteOf f.status.toNat_lt fun k hk => ?_
  rw [header_byte hstored haligned hp (by omega)]
  exact if_pos hk

include hfit

theorem rxLen_eq : rxLen ring p = f.data.length := by
  have hroom := f.room_ge
  unfold rxBufSize at hfit
  refine load16_byteOf (by omega) fun k hk => ?_
  rw [Nat.add_assoc, header_byte hstored haligned hp (by omega)]
  unfold Frame.byte
  rw [if_neg (by omega), if_pos (by omega), Nat.add_sub_cancel_left]

theorem isPacket_eq : isPacket ring p = true := by
  have hlong := f.long
  have hroom := f.room_ge
  unfold isPacket
  rw [rxStatus_eq hstored haligned hp, rxLen_eq hstored haligned hp hfit, f.ok]
  simp only [beq_self_eq_true, Bool.true_and, Bool.and_eq_true, decide_eq_true_eq]
  omega

theorem frameAt_eq : frameAt ring p = f.data := by
  have hlen := rxLen_eq hstored haligned hp hfit
  have hroom := f.room_ge
  refine ext_getElem? fun k => ?_
  unfold frameAt
  rw [getElem?_map, hlen]
  by_cases hk : k < f.data.length
  · have hbyte : ring ((p + (4 + k)) % rxBufSize) = f.data.getD k 0 := by
      rw [hstored (4 + k) (by omega)]
      unfold Frame.byte
      rw [if_neg (by omega), if_neg (by omega), Nat.add_sub_cancel_left]
    rw [getElem?_range hk, map_some, getElem?_eq_getElem hk]
    refine congrArg some ?_
    rw [getD_eq_getElem _ _ hk] at hbyte
    rw [← hbyte]
    by_cases hwrap : wraps ring p = true ∧ rxBufSize - (p + 4) ≤ k
    · rw [if_pos (by rw [hwrap.1, decide_eq_true hwrap.2]; rfl)]
      refine congrArg ring ?_
      rw [Nat.mod_eq_sub_mod (by omega), Nat.mod_eq_of_lt (by omega)]
      unfold rxBufSize at hp hwrap ⊢
      omega
    · rw [if_neg (by
        rw [Bool.and_eq_true, decide_eq_true_iff]
        exact hwrap)]
      refine congrArg ring ?_
      unfold wraps at hwrap
      rw [hlen, decide_eq_true_iff] at hwrap
      rw [Nat.mod_eq_of_lt (by omega), Nat.add_assoc]
  · rw [getElem?_eq_none (Nat.le_of_not_lt hk),
      getElem?_eq_none (by rw [length_range]; exact Nat.le_of_not_lt hk), map_none]

end Layout

theorem advance_eq {f : Frame} {p : Nat} (_ : p % 4 = 0) (_ : p < rxBufSize)
    (_ : f.room ≤ rxBufSize) : advance p f.data.length = (p + f.room) % rxBufSize := by
  unfold Frame.room rxBufSize at *
  unfold advance rxBufSize
  dsimp only
  split <;> omega


/-! ### What the ring must look like -/

/-- The oldest frame that has not been read fits `frame_copy`, or there is none and nothing looks like a header. -/
def State.readable (s : State) (offset : Nat) : Bool :=
  match s.unread with
  | [] => !isPacket s.ring offset
  | f :: _ => offset + 4 + f.data.length ≤ rxBufSize || f.data.length ≤ frameCopySize

/-- No loop begins inside of another one, and a loop looks where it finds a frame or no header. -/
def proper (s : State) : Event → Bool
  | .begin => s.loops.isEmpty
  | .look => s.loops.all fun loop => s.readable loop.offset
  | _ => true

def meets : State → List Event → Bool
  | _, [] => true
  | s, event :: events =>
    proper s event &&
      match step s event with
      | none => true
      | some s => meets s events

/-! ### The invariant -/

def State.readPos (s : State) : Nat :=
  match s.loops with
  | [] => s.rxOffset
  | loop :: _ => loop.offset

def State.passing (s : State) : Nat :=
  match s.loops with
  | [] => 0
  | loop :: _ => if loop.processing.isSome then 1 else 0

structure Sound (s : State) : Prop where
  overrun : s.overrun = false
  single : s.loops.length ≤ 1
  aligned : s.readPos % 4 = 0
  inside : s.readPos < rxBufSize
  fits : totalRoom s.unread ≤ rxBufSize
  layout : Layout s.ring s.readPos s.unread s.writePos
  counted : s.consumed + s.passing ≤ s.written.length
  delivered : s.delivered = (s.written.take (s.consumed + s.passing)).map Frame.data
  current : ∀ loop ∈ s.loops, ∀ n, loop.processing = some n →
    ∃ f rest, s.unread = f :: rest ∧ f.data.length = n

theorem start_sound : Sound start where
  overrun := rfl
  single := Nat.zero_le 1
  aligned := rfl
  inside := by decide
  fits := by decide
  layout := rfl
  counted := Nat.le_refl 0
  delivered := rfl
  current := fun _ hloop => absurd hloop not_mem_nil

theorem take_succ_of_unread {s : State} {f : Frame} {fs : List Frame} (h : s.unread = f :: fs) :
    s.consumed < s.written.length ∧ s.written.take (s.consumed + 1) = s.written.take s.consumed ++ [f] := by
  have hhead : s.written[s.consumed]? = some f := by
    rw [← head?_drop]
    exact congrArg List.head? h
  refine ⟨(List.getElem?_eq_some_iff.mp hhead).1, ?_⟩
  rw [take_add_one, hhead, toList_some]

section Steps

variable {s s' : State} (hs : Sound s)
include hs

theorem Sound.write {f : Frame} (h : step s (.write f) = some s') : Sound s' := by
  change cardWrite f s = some s' at h
  unfold cardWrite at h
  split at h
  case isFalse => exact nomatch h
  case isTrue hfit =>
    have hconsumed : s.consumed ≤ s.written.length := (Nat.le_add_right _ _).trans hs.counted
    have hunread : s'.unread = s.unread ++ [f] := by
      cases h
      exact drop_append_of_le_length hconsumed
    have htotal : totalRoom s'.unread = totalRoom s.unread + f.room := by
      rw [hunread]
      unfold totalRoom
      rw [map_append, sum_append, map_singleton, sum_singleton]
    have hcounted : s.consumed + s.passing ≤ (s.written ++ [f]).length := by
      rw [length_append]
      exact hs.counted.trans (Nat.le_add_right _ _)
    have hlayout := hs.layout.write hfit
    rw [← hunread] at hlayout
    cases h
    exact
      { overrun := hs.overrun
        single := hs.single
        aligned := hs.aligned
        inside := hs.inside
        fits := htotal ▸ hfit
        layout := hlayout
        counted := hcounted
        delivered := by
          refine hs.delivered.trans (congrArg (List.map Frame.data) ?_)
          exact (take_append_of_le_length hs.counted).symm
        current := fun loop hloop n hn => by
          obtain ⟨g, rest, hg, hlength⟩ := hs.current loop hloop n hn
          exact ⟨g, rest ++ [f], by rw [hunread, hg, cons_append], hlength⟩ }

theorem Sound.begin (hproper : proper s .begin = true) (h : step s .begin = some s') : Sound s' := by
  have hidle : s.loops = [] := List.isEmpty_iff.mp hproper
  change (if s.canBegin then _ else none) = some s' at h
  split at h
  case isFalse => exact nomatch h
  case isTrue =>
    have hread : s.readPos = s.rxOffset := by rw [State.readPos, hidle]
    have hpassing : s.passing = 0 := by rw [State.passing, hidle]
    cases h
    exact
      { overrun := hs.overrun
        single := by rw [hidle]; exact Nat.le_refl 1
        aligned := hread ▸ hs.aligned
        inside := hread ▸ hs.inside
        fits := hs.fits
        layout := hread ▸ hs.layout
        counted := by
          have hcounted := hs.counted
          rw [hpassing] at hcounted
          exact hcounted
        delivered := by
          rw [hs.delivered, hpassing]
          rfl
        current := fun loop hloop n hn => by
          rw [hidle, mem_singleton] at hloop
          rw [hloop] at hn
          exact nomatch hn }

theorem Sound.loops_eq {loop : Loop} {rest : List Loop} (h : s.loops = loop :: rest) : rest = [] := by
  have hsingle := hs.single
  rw [h, length_cons] at hsingle
  exact length_eq_zero_iff.mp (by omega)

theorem Sound.look (hproper : proper s .look = true) (h : step s .look = some s') :
    Sound s' ∧ (s'.loops = [] → s'.delivered = s'.written.map Frame.data) := by
  change lookAt s = some s' at h
  unfold lookAt at h
  split at h
  case h_1 => exact nomatch h
  case h_2 loop rest hloops =>
    obtain rfl := hs.loops_eq hloops
    obtain ⟨offset, processing, count⟩ := loop
    cases processing with
    | some n => exact nomatch h
    | none =>
      have hread : s.readPos = offset := by rw [State.readPos, hloops]
      have hpassing : s.passing = 0 := by rw [State.passing, hloops]; rfl
      have hreadable : s.readable offset = true := by
        have hall : s.loops.all (fun loop => s.readable loop.offset) = true := hproper
        rw [hloops, all_cons, Bool.and_eq_true] at hall
        exact hall.1
      have hlayout := hread ▸ hs.layout
      have haligned := hread ▸ hs.aligned
      have hinside := hread ▸ hs.inside
      have hdelivered := hs.delivered
      rw [hpassing] at hdelivered
      unfold State.readable at hreadable
      dsimp only at h
      cases hunread : s.unread with
      | nil =>
        rw [hunread] at hreadable
        have hnone : isPacket s.ring offset = false := by
          rwa [Bool.not_eq_true'] at hreadable
        have hall : s.written.length ≤ s.consumed := drop_eq_nil_iff.mp hunread
        rw [if_neg (by decide), hnone, if_neg (by decide)] at h
        cases h
        refine ⟨?_, fun _ => ?_⟩
        · exact
            { overrun := hs.overrun
              single := Nat.zero_le 1
              aligned := haligned
              inside := hinside
              fits := hs.fits
              layout := hlayout
              counted := (Nat.le_add_right _ _).trans hs.counted
              delivered := hdelivered
              current := fun _ hloop => absurd hloop not_mem_nil }
        · exact hdelivered.trans (congrArg _ (take_of_length_le hall))
      | cons f fs =>
        rw [hunread] at hreadable hlayout
        have hfits := hs.fits
        rw [hunread, totalRoom_cons] at hfits
        have hfit : f.room ≤ rxBufSize := (Nat.le_add_right _ _).trans hfits
        have hlen := rxLen_eq hlayout.1 haligned hinside hfit
        obtain ⟨hlt, htake⟩ := take_succ_of_unread hunread
        rw [if_neg (by decide), isPacket_eq hlayout.1 haligned hinside hfit, if_pos rfl,
          frameAt_eq hlayout.1 haligned hinside hfit, hlen] at h
        cases h
        refine ⟨?_, fun hnil => nomatch hnil⟩
        exact
          { overrun := by
              have hno : (wraps s.ring offset && decide (frameCopySize < f.data.length)) = false := by
                unfold wraps
                rw [hlen]
                simp only [Bool.and_eq_false_iff, decide_eq_false_iff_not, not_lt]
                simpa only [Bool.or_eq_true, decide_eq_true_eq] using hreadable
              rw [hs.overrun, hno]
              rfl
            single := Nat.le_refl 1
            aligned := haligned
            inside := hinside
            fits := hs.fits
            layout := hread ▸ hs.layout
            counted := hlt
            delivered := by
              show s.delivered ++ [f.data] = (s.written.take (s.consumed + 1)).map Frame.data
              rw [htake, map_append, hdelivered]
              rfl
            current := fun loop hloop n hn => by
              rw [mem_singleton.mp hloop] at hn
              exact ⟨f, fs, hunread, some.inj hn⟩ }

theorem Sound.done (h : step s .done = some s') : Sound s' := by
  change processed s = some s' at h
  unfold processed at h
  split at h
  case h_1 => exact nomatch h
  case h_2 loop rest hloops =>
    obtain rfl := hs.loops_eq hloops
    split at h
    case h_1 => exact nomatch h
    case h_2 n hn =>
      obtain ⟨f, fs, hunread, rfl⟩ := hs.current loop (hloops ▸ mem_singleton_self loop) n hn
      obtain ⟨hlt, htake⟩ := take_succ_of_unread hunread
      have hread : s.readPos = loop.offset := by rw [State.readPos, hloops]
      have hpassing : s.passing = 1 := by
        rw [State.passing, hloops]
        exact if_pos (hn ▸ rfl)
      have hlayout := hread ▸ hs.layout
      have hfits := hs.fits
      have hdelivered := hs.delivered
      rw [hunread] at hlayout hfits
      rw [hpassing] at hdelivered
      have hfit : f.room ≤ rxBufSize := (Nat.le_add_right _ _).trans hfits
      have hadvance := advance_eq (hread ▸ hs.aligned) (hread ▸ hs.inside) hfit
      have hrest : s'.unread = fs := by
        cases h
        show s.written.drop (s.consumed + 1) = fs
        rw [← drop_drop]
        exact congrArg (List.drop 1) hunread
      have hbehind : Layout s.ring (advance loop.offset f.data.length) s'.unread s.writePos := by
        rw [hrest, hadvance, layout_congr (Nat.mod_mod _ _)]
        exact hlayout.2
      have hroom : totalRoom s'.unread ≤ rxBufSize := by
        rw [hrest]
        exact (Nat.le_add_left _ _).trans hfits
      have haligned : advance loop.offset f.data.length % 4 = 0 := by
        have halign := hread ▸ hs.aligned
        rw [hadvance]
        unfold Frame.room rxBufSize
        omega
      have hinside : advance loop.offset f.data.length < rxBufSize := by
        rw [hadvance]
        exact Nat.mod_lt _ (by decide)
      cases h
      exact
        { overrun := hs.overrun
          single := Nat.le_refl 1
          aligned := haligned
          inside := hinside
          fits := hroom
          layout := hbehind
          counted := hlt
          delivered := hdelivered
          current := fun loop hloop n hn => by
            rw [mem_singleton.mp hloop] at hn
            exact nomatch hn }

theorem Sound.next {event : Event} (hproper : proper s event = true)
    (h : step s event = some s') : Sound s' := by
  cases event with
  | write f => exact hs.write h
  | begin => exact hs.begin hproper h
  | look => exact (hs.look hproper h).1
  | done => exact hs.done h

end Steps

section Runs

variable {s s' : State} {events : List Event} {event : Event} {loop : Loop}

theorem run_cons (h : run s (event :: events) = some s') :
    ∃ s₁, step s event = some s₁ ∧ run s₁ events = some s' := by
  unfold run at h
  cases hstep : step s event with
  | none =>
    rw [hstep] at h
    exact nomatch h
  | some s₁ =>
    rw [hstep] at h
    exact ⟨s₁, rfl, h⟩

theorem meets_cons {s₁ : State} (h : meets s (event :: events) = true) (hstep : step s event = some s₁) :
    proper s event = true ∧ meets s₁ events = true := by
  unfold meets at h
  rw [hstep, Bool.and_eq_true] at h
  exact h

theorem Sound.along (hs : Sound s) (hmeets : meets s events = true)
    (h : run s events = some s') : Sound s' := by
  induction events generalizing s with
  | nil => exact some.inj h ▸ hs
  | cons event events ih =>
    obtain ⟨s₁, hstep, hrun⟩ := run_cons h
    obtain ⟨hproper, hrest⟩ := meets_cons hmeets hstep
    exact ih (hs.next hproper hstep) hrest hrun

/-! #### Termination -/

def looks (events : List Event) : Nat :=
  events.countP fun event => event matches .look

def begins (events : List Event) : Nat :=
  events.countP fun event => event matches .begin

theorem step_counts (h : step s event = some s') : looks [event] + s'.loops.length + s.delivered.length =
      begins [event] + s.loops.length + s'.delivered.length := by
  cases event with
  | write f =>
    change cardWrite f s = some s' at h
    unfold cardWrite at h
    split at h
    case isTrue => cases h; rfl
    case isFalse => exact nomatch h
  | begin =>
    change (if s.canBegin then _ else none) = some s' at h
    split at h
    case isTrue =>
      cases h
      show 0 + (s.loops.length + 1) + s.delivered.length = _
      show _ = 1 + s.loops.length + s.delivered.length
      omega
    case isFalse => exact nomatch h
  | look =>
    change lookAt s = some s' at h
    unfold lookAt at h
    show 1 + s'.loops.length + s.delivered.length = 0 + s.loops.length + s'.delivered.length
    split at h
    case h_1 => exact nomatch h
    case h_2 loop rest hloops =>
      rw [hloops, length_cons]
      split_ifs at h
      · cases h
        rw [length_append, length_cons, length_singleton]
        omega
      · cases h
        show 1 + rest.length + s.delivered.length = 0 + (rest.length + 1) + s.delivered.length
        omega
  | done =>
    change processed s = some s' at h
    unfold processed at h
    split at h
    case h_1 => exact nomatch h
    case h_2 loop rest hloops =>
      split at h
      case h_1 => exact nomatch h
      case h_2 =>
        cases h
        rw [hloops]
        rfl

theorem run_counts (h : run s events = some s') : looks events + s'.loops.length + s.delivered.length =
      begins events + s.loops.length + s'.delivered.length := by
  induction events generalizing s with
  | nil =>
    obtain rfl := some.inj h
    rfl
  | cons event events ih =>
    obtain ⟨s₁, hstep, hrun⟩ := run_cons h
    have hone := step_counts hstep
    have hmore := ih hrun
    unfold looks begins at *
    rw [countP_cons, countP_cons]
    simp only [countP_cons, countP_nil] at hone
    omega

def drain : Nat → List Event
  | 0 => [.look]
  | n + 1 => .look :: .done :: drain n

def State.finish (s : State) : List Event :=
  (if s.passing = 1 then [.done] else []) ++ drain (s.unread.length - s.passing)

theorem look_of_free (hloops : s.loops = [loop]) (hfree : loop.processing = none) :
    ∃ s₁, step s .look = some s₁ ∧ s₁.written = s.written ∧ s₁.consumed = s.consumed ∧
      (s₁.loops = [] ∨ ∃ loop₁, s₁.loops = [loop₁] ∧ loop₁.processing.isSome = true) := by
  show ∃ s₁, lookAt s = some s₁ ∧ _
  unfold lookAt
  rw [hloops]
  dsimp only
  rw [hfree, if_neg (by decide)]
  split
  case isTrue => exact ⟨_, rfl, rfl, rfl, .inr ⟨_, rfl, rfl⟩⟩
  case isFalse => exact ⟨_, rfl, rfl, rfl, .inl rfl⟩

theorem done_of_busy (hloops : s.loops = [loop]) (hbusy : loop.processing.isSome = true) :
    ∃ s₁, step s .done = some s₁ ∧ s₁.written = s.written ∧ s₁.consumed = s.consumed + 1 ∧
      ∃ loop₁, s₁.loops = [loop₁] ∧ loop₁.processing = none := by
  obtain ⟨n, hn⟩ := isSome_iff_exists.mp hbusy
  show ∃ s₁, processed s = some s₁ ∧ _
  unfold processed
  rw [hloops]
  dsimp only
  rw [hn]
  exact ⟨_, rfl, rfl, rfl, _, rfl, rfl⟩

theorem unread_length : s.unread.length = s.written.length - s.consumed := length_drop

theorem Sound.drained {n : Nat} (hs : Sound s) (hloops : s.loops = [loop])
    (hfree : loop.processing = none) (hn : s.unread.length = n) (hmeets : meets s (drain n) = true) :
    ∃ s', run s (drain n) = some s' ∧ s'.loops = [] ∧ s'.delivered = s.written.map Frame.data := by
  induction n generalizing s loop with
  | zero =>
    obtain ⟨s₁, hstep, hwritten, hconsumed, hend⟩ := look_of_free hloops hfree
    obtain ⟨hproper, -⟩ := meets_cons hmeets hstep
    obtain ⟨hs₁, hall⟩ := hs.look hproper hstep
    have hended : s₁.loops = [] := by
      refine hend.resolve_right ?_
      rintro ⟨loop₁, hloops₁, hbusy⟩
      obtain ⟨m, hm⟩ := isSome_iff_exists.mp hbusy
      obtain ⟨f, fs, hunread, -⟩ := hs₁.current loop₁ (hloops₁ ▸ mem_singleton_self _) m hm
      have hlength := congrArg List.length hunread
      rw [unread_length, hwritten, hconsumed, ← unread_length, hn] at hlength
      exact nomatch hlength
    refine ⟨s₁, ?_, hended, hwritten ▸ hall hended⟩
    show (step s .look).bind _ = _
    rw [hstep]
    rfl
  | succ n ih =>
    obtain ⟨s₁, hstep, hwritten, hconsumed, hend⟩ := look_of_free hloops hfree
    obtain ⟨hproper, hmeets₁⟩ := meets_cons hmeets hstep
    obtain ⟨hs₁, hall⟩ := hs.look hproper hstep
    have hbusy : ∃ loop₁, s₁.loops = [loop₁] ∧ loop₁.processing.isSome = true := by
      refine hend.resolve_left fun hended => ?_
      have hidle : s₁.passing = 0 := by rw [State.passing, hended]
      have hlength := congrArg List.length (hall hended)
      rw [hs₁.delivered, length_map, length_map, length_take, hidle, hconsumed, hwritten] at hlength
      rw [unread_length] at hn
      omega
    obtain ⟨loop₁, hloops₁, hbusy⟩ := hbusy
    obtain ⟨s₂, hdone, hwritten₂, hconsumed₂, loop₂, hloops₂, hfree₂⟩ := done_of_busy hloops₁ hbusy
    have hn₂ : s₂.unread.length = n := by
      rw [unread_length] at hn ⊢
      rw [hwritten₂, hconsumed₂, hwritten, hconsumed]
      omega
    obtain ⟨s', hrun, hended, hdelivered⟩ :=
      ih (hs₁.done hdone) hloops₂ hfree₂ hn₂ (meets_cons hmeets₁ hdone).2
    refine ⟨s', ?_, hended, by rw [hdelivered, hwritten₂, hwritten]⟩
    show (step s .look).bind (fun s => (step s .done).bind _) = _
    rw [hstep, bind_some, hdone]
    exact hrun

theorem Sound.finished (hs : Sound s) (hloops : s.loops ≠ []) (hmeets : meets s s.finish = true) :
    ∃ s', run s s.finish = some s' ∧ s'.loops = [] ∧ s'.delivered = s.written.map Frame.data := by
  obtain ⟨loop, rest, hcons⟩ := exists_cons_of_ne_nil hloops
  obtain rfl := hs.loops_eq hcons
  cases hprocessing : loop.processing with
  | none =>
    have hpassing : s.passing = 0 := by
      rw [State.passing, hcons]
      exact if_neg (by rw [hprocessing]; decide)
    unfold State.finish at hmeets ⊢
    rw [hpassing, if_neg Nat.zero_ne_one, nil_append] at hmeets ⊢
    exact hs.drained hcons hprocessing rfl hmeets
  | some n =>
    have hbusy : loop.processing.isSome = true := by rw [hprocessing]; rfl
    have hpassing : s.passing = 1 := by
      rw [State.passing, hcons]
      exact if_pos hbusy
    unfold State.finish at hmeets ⊢
    rw [hpassing, if_pos rfl, singleton_append] at hmeets ⊢
    obtain ⟨s₁, hdone, hwritten, hconsumed, loop₁, hloops₁, hfree⟩ := done_of_busy hcons hbusy
    have hn : s₁.unread.length = s.unread.length - 1 := by
      rw [unread_length, unread_length, hwritten, hconsumed, Nat.sub_sub]
    obtain ⟨s', hrun, hended, hdelivered⟩ :=
      (hs.done hdone).drained hloops₁ hfree hn (meets_cons hmeets hdone).2
    refine ⟨s', ?_, hended, by rw [hdelivered, hwritten]⟩
    show (step s .done).bind _ = _
    rw [hdone]
    exact hrun

end Runs

/-- Along a run whose steps are proper, the frames that were written are passed on, each once and in order, and a
loop makes one look more than it passes frames on. -/
theorem frames_received {events : List Event} {s : State} (hrun : run start events = some s)
    (hmeets : meets start events = true) : s.overrun = false ∧ s.delivered <+: s.written.map Frame.data ∧
      looks events + s.loops.length = s.delivered.length + begins events ∧
      (∀ s', proper s .look = true → step s .look = some s' → s'.loops = [] →
        s'.delivered = s'.written.map Frame.data) ∧ (s.loops ≠ [] → meets s s.finish = true →
        ∃ s', run s s.finish = some s' ∧ s'.loops = [] ∧ s'.delivered = s.written.map Frame.data) := by
  have hs := start_sound.along hmeets hrun
  refine ⟨hs.overrun, ?_, ?_, fun s' hproper hstep => (hs.look hproper hstep).2, hs.finished⟩
  · rw [hs.delivered]
    exact ( take_prefix _ _).map Frame.data
  · have hcounts := run_counts hrun
    change looks events + s.loops.length + 0 = begins events + 0 + s.delivered.length at hcounts
    omega

/-! ### Where a header stays behind -/

def quietFrame (len : Nat) (h : 4 ≤ len) : Frame :=
  { status := 1
    data := List.replicate len 0
    ok := rfl
    long := length_replicate ▸ h }

def shortRun : List Event := [.write (quietFrame 60 (by decide)), .begin, .look, .done, .look]

theorem frames_received_short :
    ∃ s, run start shortRun = some s ∧ s.overrun = false ∧ s.delivered <+: s.written.map Frame.data := by
  have hsome : (run start shortRun).isSome = true := by decide
  obtain ⟨s, hs⟩ := isSome_iff_exists.mp hsome
  have hreceived := frames_received hs (by decide)
  exact ⟨s, hs, hreceived.1, hreceived.2.1⟩

def lapRun : List Event :=
  List.replicate 32 (.write (quietFrame 1020 (by decide))) ++ [.begin] ++
    (List.replicate 32 [.look, .done]).flatten ++ [.look]

def nestedRun : List Event := [.write (quietFrame 60 (by decide)), .begin, .look, .begin, .look]

/-- The first frame is taken for a new one after a lap, and the frame that is passed on for a new one in
an inner loop. -/
theorem frames_passed_twice :
    (run start lapRun).map (fun s => (s.written.length, s.delivered.length)) = some (32, 33) ∧
      (run start nestedRun).map (fun s => (s.written.length, s.delivered.length)) = some (1, 2) ∧
      ¬ ∀ events s, run start events = some s → s.delivered <+: s.written.map Frame.data := by
  have hnested : (run start nestedRun).map (fun s => (s.written.length, s.delivered.length)) =
    some (1, 2) := by decide
  refine ⟨by decide +kernel, hnested, fun h => ?_⟩
  obtain ⟨s, hs, hlengths⟩ := map_eq_some_iff.mp hnested
  have hle := (h nestedRun s hs).length_le
  rw [length_map, (Prod.mk.inj hlengths).1, (Prod.mk.inj hlengths).2] at hle
  exact absurd hle (by decide)

end JexOs.Rtl8139
