import JexOs.Keyboard
import JexOs.Lib.Circular

/-!
# The ring of the keyboard is a queue

A queue of at most 255 characters gives the same results as the ring: a read takes place where it loads `kbd_head`
if it finds nothing, and where it stores `kbd_tail` otherwise.
-/

namespace JexOs.Keyboard

open Circular List Option

structure Queue where
  modifiers : Modifiers
  pending : List Char8
deriving DecidableEq, Repr

def Queue.empty : Queue :=
  { modifiers :=
      { shiftHeld := false
        ctrlHeld := false }
    pending := [] }

inductive Op where
  | key (scancode : Char8)
  | read
  | flush
deriving DecidableEq, Repr

def Queue.key (q : Queue) (scancode : Char8) : Queue :=
  let (m, pressed) := translate q.modifiers scancode
  { modifiers := m
    pending :=
      match pressed with
      | some c => if q.pending.length < 255 then q.pending ++ [c] else q.pending
      | none => q.pending }

def Queue.step (q : Queue) : Op → Queue × List Int
  | .key scancode => (q.key scancode, [])
  | .read =>
    match q.pending with
    | [] => (q, [-1])
    | c :: rest => ({ q with pending := rest }, [c.toInt])
  | .flush => ({ q with pending := [] }, [])

def Queue.run (q : Queue) : List Op → Queue × List Int
  | [] => (q, [])
  | op :: ops =>
    let (q, returned) := q.step op
    let (q, results) := q.run ops
    (q, returned ++ results)

def opAt (k : State) : Event → List Op
  | .interrupt scancode => [.key scancode]
  | .consumer =>
    match k.reader with
    | .idle =>
      match k.calls with
      | [] => []
      | .flush :: _ => [.flush]
      | .read :: _ => if k.kbdHead = k.kbdTail then [.read] else []
    | .next _ _ => [.read]
    | _ => []

def opsOf (k : State) : List Event → List Op
  | [] => []
  | event :: events => opAt k event ++ opsOf (step k event).1 events

theorem mem_getD {keys : List Char8} (n : Nat) : keys.getD n 0 ∈ 0 :: keys := by
  rw [getD_eq_getElem?_getD]
  cases h : keys[n]? with
  | none => exact mem_cons_self
  | some c => exact mem_cons_of_mem _ (mem_of_getElem? h)

theorem ctrlChar_ne {c : Char8} (h : c ≠ 0xFF) : ctrlChar c ≠ 0xFF := by
  unfold ctrlChar
  cases hfind : ctrlCodes.find? fun p => c = code p.1 ∨ c = code p.1.toUpper with
  | none => exact h
  | some p =>
    have hcodes : ∀ p ∈ ctrlCodes, p.2 ≠ 0xFF := by decide
    exact hcodes p (mem_of_find?_eq_some hfind)

theorem translate_ne {m m' : Modifiers} {scancode c : Char8} (h : translate m scancode = (m', some c)) :
    c.toInt ≠ -1 := by
  have hplain : ∀ keys : List Char8, (∀ c ∈ 0 :: keys, c ≠ 0xFF) →
      ∀ c, (if m.ctrlHeld then ctrlChar (keys.getD scancode.toNat 0) else keys.getD scancode.toNat 0) = c →
        c ≠ 0xFF := by
    rintro keys hkeys c rfl
    split
    · exact ctrlChar_ne (hkeys _ (mem_getD _))
    · exact hkeys _ (mem_getD _)
  have hne : c ≠ 0xFF := by
    unfold translate at h
    by_cases hleading : scancode = 0xE0
    · rw [if_pos hleading] at h
      cases h
    by_cases hbreak : scancode.getLsbD 7 = true
    · rw [if_neg hleading, if_pos hbreak] at h
      cases h
    by_cases hshift : scancode = 42 ∨ scancode = 54
    · rw [if_neg hleading, if_neg hbreak, if_pos hshift] at h
      cases h
    by_cases hctrl : scancode = 29
    · rw [if_neg hleading, if_neg hbreak, if_neg hshift, if_pos hctrl] at h
      cases h
    rw [if_neg hleading, if_neg hbreak, if_neg hshift, if_neg hctrl] at h
    obtain ⟨-, hc⟩ := ite_none_right_eq_some.mp (Prod.mk.inj h).2
    cases hheld : m.shiftHeld with
    | true =>
      rw [hheld, if_pos rfl] at hc
      exact hplain kbdusShifted (by decide) c (some.inj hc)
    | false =>
      rw [hheld, if_neg Bool.false_ne_true] at hc
      exact hplain kbdus (by decide) c (some.inj hc)
  intro hint
  exact hne (BitVec.eq_of_toInt_eq (hint.trans (by decide)))

section Step

variable {k k' : State} {q : Queue} {event : Event} {results : List Int}

def Reader.Knows (tail : Nat) (pending : List Char8) : Reader → Prop
  | .idle => True
  | .head h => h = tail ∨ pending ≠ []
  | .nonempty => pending ≠ []
  | .index t => t = tail ∧ pending ≠ []
  | .taken c => pending.head? = some c
  | .next c t => t = tail ∧ pending.head? = some c

/-- A read in progress that has found nothing: its result is still to be returned. -/
def State.due (k : State) : List Int :=
  match k.reader with
  | .head h => if h = k.kbdTail then [-1] else []
  | _ => []

structure Holds (k : State) (q : Queue) : Prop where
  modifiers : k.modifiers = q.modifiers
  queued : Queued kbdBufSize k.kbdBuffer k.kbdHead k.kbdTail q.pending
  reader : k.reader.Knows k.kbdTail q.pending

theorem holds_boot (calls : List Call) : Holds (boot calls) Queue.empty where
  modifiers := rfl
  queued := queued_nil (show 0 < 256 by decide)
  reader := trivial

theorem Reader.Knows.append {r : Reader} {tail : Nat} {pending more : List Char8} (h : r.Knows tail pending) :
    r.Knows tail (pending ++ more) := by
  have hne : pending ≠ [] → pending ++ more ≠ [] := fun hne heq => hne (append_eq_nil_iff.mp heq).1
  have hhead : ∀ c, pending.head? = some c → (pending ++ more).head? = some c := by
    intro c hc
    rw [head?_append, hc]
    rfl
  cases r with
  | idle => trivial
  | head h' => exact h.imp_right hne
  | nonempty => exact hne h
  | index t => exact ⟨h.1, hne h.2⟩
  | taken c => exact hhead c h
  | next c t => exact ⟨h.1, hhead c h.2⟩

variable (h : Holds k q)

include h

theorem Holds.push (c : Char8) : Holds (k.push c)
      { q with pending := if q.pending.length < 255 then q.pending ++ [c] else q.pending } := by
  have hfull := h.queued.full_iff
  have hle := h.queued.room
  have hsize : kbdBufSize = 256 := rfl
  unfold State.push
  by_cases hroom : q.pending.length < 255
  · rw [if_pos hroom, if_pos fun heq => by have := hfull.mp heq; omega]
    exact
      { modifiers := h.modifiers
        queued := h.queued.push (by omega)
        reader := h.reader.append }
  · rw [if_neg hroom, if_neg fun hne => hne (hfull.mpr (by omega))]
    exact h

theorem Holds.interrupt (scancode : Char8) : Holds (keyboardCallback scancode k) (q.key scancode) := by
  unfold keyboardCallback Queue.key
  rw [h.modifiers]
  obtain ⟨m, pressed⟩ := translate q.modifiers scancode
  have hmod : Holds { k with modifiers := m } { q with modifiers := m } :=
    { modifiers := rfl
      queued := h.queued
      reader := h.reader }
  cases pressed with
  | none => exact hmod
  | some c => exact hmod.push c

omit h in
theorem push_due (k : State) (c : Char8) : (k.push c).due = k.due := by
  unfold State.push
  dsimp only
  split <;> rfl

omit h in
theorem keyboardCallback_due (scancode : Char8) (k : State) : (keyboardCallback scancode k).due = k.due := by
  unfold keyboardCallback
  obtain ⟨m, pressed⟩ := translate k.modifiers scancode
  cases pressed with
  | none => rfl
  | some c => exact push_due _ c

omit h in
theorem queue_run_append (q : Queue) (ops ops' : List Op) :
    q.run (ops ++ ops') = (((q.run ops).1.run ops').1, (q.run ops).2 ++ ((q.run ops).1.run ops').2) := by
  induction ops generalizing q with
  | nil => rfl
  | cons op ops ih =>
    simp only [cons_append, Queue.run, ih, append_assoc]

theorem Holds.flush (hidle : k.reader = .idle) : Holds (keyboardFlush k) { q with pending := [] } where
  modifiers := h.modifiers
  queued := queued_nil (show 0 < 256 by decide)
  reader := by
    show k.reader.Knows 0 []
    rw [hidle]
    trivial

theorem Holds.consume : Holds (Keyboard.consume k).1 (q.run (opAt k .consumer)).1 ∧
      k.due ++ (q.run (opAt k .consumer)).2 = (Keyboard.consume k).2.toList ++ (Keyboard.consume k).1.due := by
  obtain ⟨m, buffer, head, tail, reader, calls⟩ := k
  have hknows := h.reader
  have hempty := h.queued.empty_iff
  cases reader with
  | idle =>
    cases calls with
    | nil => exact ⟨h, rfl⟩
    | cons call rest =>
      cases call with
      | flush =>
        have hrest : Holds ⟨m, buffer, head, tail, .idle, rest⟩ q :=
          { modifiers := h.modifiers
            queued := h.queued
            reader := trivial }
        exact ⟨hrest.flush rfl, rfl⟩
      | read =>
        have hloaded : head = tail ∨ q.pending ≠ [] → Holds ⟨m, buffer, head, tail, .head head, rest⟩ q :=
          fun hknows =>
            { modifiers := h.modifiers
              queued := h.queued
              reader := hknows }
        unfold Keyboard.consume opAt State.due
        dsimp only at hempty ⊢
        by_cases heq : head = tail
        · rw [if_pos heq, if_pos heq, Queue.run, Queue.step, hempty.mp heq]
          exact ⟨hloaded (.inl heq), rfl⟩
        · rw [if_neg heq, if_neg heq]
          exact ⟨hloaded (.inr fun hnil => heq (hempty.mpr hnil)), rfl⟩
  | head h' =>
    unfold Keyboard.consume opAt State.due
    by_cases heq : h' = tail
    · simp only [if_pos heq]
      refine ⟨?_, rfl⟩
      exact
        { modifiers := h.modifiers
          queued := h.queued
          reader := trivial }
    · simp only [if_neg heq]
      refine ⟨?_, rfl⟩
      exact
        { modifiers := h.modifiers
          queued := h.queued
          reader := hknows.resolve_left heq }
  | nonempty =>
    refine ⟨?_, rfl⟩
    exact
      { modifiers := h.modifiers
        queued := h.queued
        reader := ⟨rfl, hknows⟩ }
  | index t =>
    obtain ⟨rfl, hne⟩ := hknows
    obtain ⟨c, rest, hpending⟩ := exists_cons_of_ne_nil hne
    have hqueued := h.queued
    rw [hpending] at hqueued
    refine ⟨?_, rfl⟩
    exact
      { modifiers := h.modifiers
        queued := h.queued
        reader := by
          show q.pending.head? = some (buffer t)
          rw [hpending]
          exact congrArg some hqueued.front.symm }
  | taken c =>
    refine ⟨?_, rfl⟩
    exact
      { modifiers := h.modifiers
        queued := h.queued
        reader := ⟨rfl, hknows⟩ }
  | next c t =>
    obtain ⟨rfl, hfirst⟩ := hknows
    obtain ⟨rest, hpending⟩ := head?_eq_some_iff.mp hfirst
    have hqueued := h.queued
    rw [hpending] at hqueued
    unfold opAt
    rw [Queue.run, Queue.step, hpending]
    refine ⟨?_, rfl⟩
    exact
      { modifiers := h.modifiers
        queued := hqueued.pop
        reader := trivial }

theorem Holds.step (event : Event) : Holds (Keyboard.step k event).1 (q.run (opAt k event)).1 ∧
      k.due ++ (q.run (opAt k event)).2 =
      (Keyboard.step k event).2.toList ++ (Keyboard.step k event).1.due := by
  cases event with
  | interrupt scancode =>
    refine ⟨h.interrupt scancode, ?_⟩
    show k.due ++ [] = [] ++ (keyboardCallback scancode k).due
    rw [keyboardCallback_due, append_nil, nil_append]
  | consumer => exact h.consume

theorem Holds.run (events : List Event) : Holds (Keyboard.run k events).1 (q.run (opsOf k events)).1 ∧
      k.due ++ (q.run (opsOf k events)).2 = (Keyboard.run k events).2 ++ (Keyboard.run k events).1.due := by
  induction events generalizing k q with
  | nil => exact ⟨h, append_nil _⟩
  | cons event events ih =>
    obtain ⟨hnext, hreturned⟩ := h.step event
    obtain ⟨hlast, hresults⟩ := ih hnext
    rw [opsOf, queue_run_append, Keyboard.run]
    refine ⟨hlast, ?_⟩
    rw [← append_assoc, hreturned, append_assoc, hresults, append_assoc]

def State.pending (k : State) : List Char8 :=
  (List.range ((k.kbdHead + kbdBufSize - k.kbdTail) % kbdBufSize)).map fun i =>
    k.kbdBuffer ((k.kbdTail + i) % kbdBufSize)

theorem Holds.pending : k.pending = q.pending := by
  unfold State.pending
  rw [h.queued.distance]
  refine ext_getElem (by rw [length_map, length_range]) fun i _ hi => ?_
  rw [getElem_map, getElem_range]
  exact h.queued.cell i _ (getElem?_eq_getElem hi)

end Step

/-- Whatever scancodes arrive at whichever accesses of the consumer, `keyboard_read` gives what a queue with room
for 255 characters gives, and -1 where none is pending. -/
theorem keyboard_fifo (calls : List Call) (events : List Event) :
    let k := (run (boot calls) events).1
    let q := (Queue.empty.run (opsOf (boot calls) events)).1
    (Queue.empty.run (opsOf (boot calls) events)).2 = (run (boot calls) events).2 ++ k.due ∧
      k.pending = q.pending ∧ k.modifiers = q.modifiers ∧ q.pending.length ≤ 255 ∧
      ∀ m m' scancode c, translate m scancode = (m', some c) → c.toInt ≠ -1 := by
  obtain ⟨hholds, hresults⟩ := (holds_boot calls).run events
  have hroom := hholds.queued.room
  exact ⟨hresults, hholds.pending, hholds.modifiers, Nat.le_of_lt_succ hroom, fun _ _ _ _ => translate_ne⟩

end JexOs.Keyboard
