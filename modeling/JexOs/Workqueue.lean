import Mathlib.Data.List.Basic

/-!
# The work queue

`src/kernel/workqueue.c`. The links are in the work items, which are known by their addresses. Both the
body of `schedule_work` and the dequeuing in `workqueue_run` go with interrupts off, so a run is a sequence
of these two steps, whoever takes them; the functions of the items are what they schedule.
-/

namespace JexOs.Workqueue

/-- A pointer to a `struct work`. -/
structure Work where
  addr : UInt32
  nonnull : addr ≠ 0
deriving DecidableEq

structure State where
  next : UInt32 → UInt32
  workHead : UInt32
  workTail : UInt32

/-- The links of the items hold anything. -/
def boot (next : UInt32 → UInt32) : State :=
  { next := next
    workHead := 0
    workTail := 0 }

def scheduleWork (w : Work) (s : State) : State :=
  let next := Function.update s.next w.addr 0
  if s.workTail ≠ 0 then
    { s with
      next := Function.update next s.workTail w.addr
      workTail := w.addr }
  else
    { next := next
      workHead := w.addr
      workTail := w.addr }

/-- The part of `workqueue_run` between `cli` and `sti`: the item that is taken, or 0. -/
def dequeue (s : State) : UInt32 × State :=
  let w := s.workHead
  if w ≠ 0 then
    let head := s.next w
    (w,
      { s with
        workHead := head
        workTail := if head = 0 then 0 else s.workTail })
  else (0, s)

/-- `workqueue_run`, for as many turns as there is fuel: the items in the order in which their functions
are called. In front of each dequeuing comes what has been scheduled since the one before, by interrupts
and by the function called last. -/
def workqueueRun : (fuel : Nat) → (turns : List (List Work)) → State → Option (List UInt32 × State)
  | 0, _, _ => none
  | fuel + 1, turns, s =>
    let s := (turns.headD []).foldl (fun s w => scheduleWork w s) s
    let (w, s) := dequeue s
    if w = 0 then some ([], s)
    else do
      let (ran, s) ← workqueueRun fuel turns.tail s
      some (w :: ran, s)

inductive Event where
  | schedule (w : Work)
  | dequeue
deriving DecidableEq

def step (s : State) : Event → State
  | .schedule w => scheduleWork w s
  | .dequeue => (dequeue s).2

def run (s : State) (events : List Event) : State := events.foldl step s

end JexOs.Workqueue
