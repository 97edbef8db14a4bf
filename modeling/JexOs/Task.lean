import JexOs.Kstack
import JexOs.Lib.Loop

/-!
# Tasks

`src/kernel/task.c`: the ready queue, the scheduler with its signal delivery, and the calls that
create, end, signal and reap tasks. The queue is the linked list the source has: task structures are
found by their address, and one that is not allocated cannot be read. What `kmalloc` and
`clone_page_directory` answer is an argument of the calls that make them. Register contexts, names
and tick counts are left out, as are the words that are stored on the kernel stack of a new task:
from task 130 on the address of that stack wraps, and they would go to other memory.

`waitpid` polls: it looks through the queue with interrupts off and opens a window for the timer
between two looks. One look is one operation here.
-/

namespace JexOs.Tasks

open Paging (Machine)
open Kstack (allocKernelStack freeKernelStack)
open Loop (Pass)

inductive TaskState where
  | ready
  | running
  | sleeping
  | zombie
  deriving DecidableEq, Repr

def sigkill : Nat := 9
def sigchld : Nat := 17

def sigDfl : Nat := 0
def sigIgn : Nat := 1

/-- `SIG_ERR` -/
def sigErr : Nat := 0xFFFFFFFF

def eperm : Int := 1
def esrch : Int := 3
def enomem : Int := 12
def einval : Int := 22

/-- `task_t` -/
structure Task where
  id : Nat
  pageDirectory : Nat
  kstack : Nat
  state : TaskState
  parentPid : Nat
  exitCode : Int
  signalPending : BitVec 32
  signalBlocked : BitVec 32
  signalHandlers : Nat → Nat

/-- A task structure in memory; address 0 is the null pointer. -/
structure Node where
  task : Task
  next : Nat

structure Kernel where
  machine : Machine
  /-- The frame of `kernel_directory`. -/
  kernelDirectory : Nat
  /-- The allocated task structures. -/
  nodes : Nat → Option Node
  currentTask : Nat
  readyQueue : Nat
  nextPid : Nat

/-- How the kernel can stop. -/
inductive Stop where
  | pageFault
  /-- A pointer that is null or to freed memory is followed. -/
  | dangling
  /-- `for (;;) asm volatile("hlt")` -/
  | halted
  /-- `panic_assert` -/
  | panicked
  /-- A loop that goes on. -/
  | spinning
  deriving DecidableEq, Repr

abbrev Result := Except Stop

namespace Kernel

def node (k : Kernel) (a : Nat) : Result Node :=
  match k.nodes a with
  | some n => .ok n
  | none => .error .dangling

def setNode (k : Kernel) (a : Nat) (n : Node) : Kernel :=
  { k with nodes := Function.update k.nodes a (some n) }

/-- `a->next = next` -/
def setNext (k : Kernel) (a next : Nat) : Result Kernel := do
  let n ← k.node a
  return k.setNode a { n with next := next }

def setTask (k : Kernel) (a : Nat) (t : Task) : Result Kernel := do
  let n ← k.node a
  return k.setNode a { n with task := t }

def kfree (k : Kernel) (a : Nat) : Kernel :=
  { k with nodes := Function.update k.nodes a none }

end Kernel

/-- The first task, the shell. -/
def initTask (pageDirectory kstack : Nat) : Task :=
  { id := 1
    pageDirectory := pageDirectory
    kstack := kstack
    state := .running
    parentPid := 0
    exitCode := 0
    signalPending := 0
    signalBlocked := 0
    signalHandlers := fun _ => 0 }

/-- `init_tasking`, with the structure `kmalloc` gave. -/
def initTasking (m : Machine) (kernelDirectory a : Nat) : Result Kernel :=
  match allocKernelStack kernelDirectory m 1 with
  | none => .error .pageFault
  | some (kstack, m) =>
    .ok
      { machine := m
        kernelDirectory := kernelDirectory
        nodes := Function.update (fun _ => none) a (some
          { task := initTask (kernelDirectory * 4096) kstack
            next := 0 })
        currentTask := a
        readyQueue := a
        nextPid := 2 }

/-- `__builtin_ctz`, for a word that is not 0. -/
def ctz (w : BitVec 32) : Nat := (List.range 32).findIdx fun i => w.getLsbD i

/-- `deliver_signals`: whether the task was terminated, and the task. -/
def deliverSignals (t : Task) : Bool × Task :=
  let pending := t.signalPending &&& ~~~t.signalBlocked
  if pending = 0 then (false, t)
  else
    let sig := ctz pending
    let t := { t with signalPending := t.signalPending &&& ~~~(1#32 <<< sig) }
    if sig = sigkill then (true, { t with state := .zombie })
    else if t.signalHandlers sig = sigIgn then (false, t)
    else if t.signalHandlers sig = sigDfl then
      if sig = sigchld then (false, t) else (true, { t with state := .zombie })
    else
      -- handlers of the user's are not called yet
      (false, t)

/-! ### `task_switch` -/

/-- `current_task->next`, or the head of the queue at its end. -/
def following (k : Kernel) (a : Nat) : Result Nat := do
  let n ← k.node a
  return if n.next = 0 then k.readyQueue else n.next

/-- The loop that passes over zombies. -/
def skipBody (k : Kernel) (start cur : Nat) : Result (Pass Nat Nat) := do
  let n ← k.node cur
  if n.task.state = .zombie then
    let cur ← following k cur
    let n ← k.node cur
    if cur = start ∧ n.task.state = .zombie then .error .halted else return .again cur
  else
    return .leave cur

/-- The search for the predecessor of `target`, for unlinking. -/
def prevBody (k : Kernel) (target prev : Nat) : Result (Pass Nat Nat) := do
  if prev = 0 then return .leave 0
  else
    let n ← k.node prev
    if n.next = target then return .leave prev else return .again n.next

/-- Take the task at `target` out of the queue. -/
def unlink (fuel : Nat) (k : Kernel) (target : Nat) : Result Kernel := do
  let n ← k.node target
  if k.readyQueue = target then return { k with readyQueue := n.next }
  else
    let prev ← Loop.run .spinning (prevBody k target) fuel k.readyQueue
    if prev = 0 then return k else k.setNext prev n.next

/-- One round of the loop that delivers signals. -/
def signalBody (fuel : Nat) (k : Kernel) : Result (Pass Kernel Kernel) := do
  let terminated := k.currentTask
  let n ← k.node terminated
  let (dead, t) := deliverSignals n.task
  let k ← k.setTask terminated t
  if dead then
    let k ← unlink fuel k terminated
    let cur ← following k terminated
    if cur = 0 then .error .panicked else return .again { k with currentTask := cur }
  else
    return .leave k

/-- Load the page directory of the task that goes on. -/
def resume (k : Kernel) : Result Kernel := do
  let n ← k.node k.currentTask
  return { k with machine := { k.machine with dir := n.task.pageDirectory / 4096 } }

def taskSwitch (fuel : Nat) (k : Kernel) : Result Kernel := do
  if k.currentTask = 0 then return k
  else
    let cur ← following k k.currentTask
    let cur ← Loop.run .spinning (skipBody k k.currentTask) fuel cur
    let k ← Loop.run .spinning (signalBody fuel) fuel { k with currentTask := cur }
    resume k

/-! ### `fork` and `kernel_fork` -/

/-- The search for the end of the queue. -/
def tailBody (k : Kernel) (tmp : Nat) : Result (Pass Nat Nat) := do
  let n ← k.node tmp
  if n.next = 0 then return .leave tmp else return .again n.next

/-- Add a task structure at the end of the queue. -/
def enqueue (fuel : Nat) (k : Kernel) (child : Nat) : Result Kernel := do
  let tmp ← Loop.run .spinning (tailBody k) fuel k.readyQueue
  k.setNext tmp child

/-- The fields of the child that are set before its stack is allocated. -/
def childOf (parent : Task) (pid newDir : Nat) : Task :=
  { id := pid
    pageDirectory := newDir
    kstack := 0
    state := .ready
    parentPid := parent.id
    exitCode := 0
    signalPending := 0
    signalBlocked := parent.signalBlocked
    signalHandlers := parent.signalHandlers }

/-- What `kmalloc` and `clone_page_directory` answer a fork, and the memory they leave. -/
structure Grant where
  child : Nat
  newDir : Nat
  machine : Machine

/-- `fork`. If there is no kernel stack to be had, the structure stays allocated. -/
def fork (fuel : Nat) (k : Kernel) (g : Grant) : Result (Int × Kernel) := do
  let parent ← k.node k.currentTask
  let k := { k with machine := g.machine }
  if g.child = 0 then return (-enomem, k)
  else if g.newDir = 0 then return (-enomem, k)
  else
    let pid := k.nextPid
    let k := { k with nextPid := k.nextPid + 1 }
    let t := childOf parent.task pid g.newDir
    match allocKernelStack k.kernelDirectory k.machine pid with
    | none => .error .pageFault
    | some (kstack, m) =>
      let k := { k with machine := m }.setNode g.child
        { task := { t with kstack := kstack }
          next := 0 }
      if kstack = 0 then return (-enomem, k)
      else return ((pid : Int), ← enqueue fuel k g.child)

/-- `kernel_fork`. -/
def kernelFork (fuel : Nat) (k : Kernel) (g : Grant) : Result (Int × Kernel) := do
  let parent ← k.node k.currentTask
  let k := { k with machine := g.machine }
  if g.child = 0 then return (-enomem, k)
  else if g.newDir = 0 then return (-enomem, k)
  else
    let pid := k.nextPid
    let k := { k with nextPid := k.nextPid + 1 }
    let t := childOf parent.task pid g.newDir
    match allocKernelStack k.kernelDirectory k.machine pid with
    | none => .error .pageFault
    | some (kstack, m) =>
      let k := { k with machine := m }.setNode g.child
        { task := { t with kstack := kstack }
          next := 0 }
      if kstack = 0 then return (-enomem, k.kfree g.child)
      else return ((pid : Int), ← enqueue fuel k g.child)

/-! ### `_task_exit` -/

/-- The reparenting loop, at `scan`. -/
def reparentBody (dying : Nat) : Kernel × Nat → Result (Pass (Kernel × Nat) Kernel)
  | (k, scan) => do
      if scan = 0 then return .leave k
      else
        let n ← k.node scan
        let k ← if n.task.parentPid = dying then k.setTask scan { n.task with parentPid := 1 }
          else pure k
        return .again (k, n.next)

/-- `_task_exit` -/
def taskExit (fuel : Nat) (k : Kernel) (exitCode : Int) : Result Kernel := do
  let dying ← k.node k.currentTask
  if dying.task.id = 1 then return k
  else
    let k ← Loop.run .spinning (reparentBody dying.task.id) fuel (k, k.readyQueue)
    let n ← k.node k.currentTask
    let k ← k.setTask k.currentTask
      { n.task with
        exitCode := exitCode
        state := .zombie }
    taskSwitch fuel k

/-! ### `waitpid` -/

/-- What a look through the queue comes to. -/
inductive Waited where
  /-- A child was reaped; `code` is what was stored through `status`, if that is not null. -/
  | reaped (pid : Nat) (code : Option Int)
  | echild
  /-- The children are all alive. -/
  | again
  deriving DecidableEq, Repr

/-- A zombie child that `waitpid` was asked for. -/
def Wanted (self : Nat) (pid : Int) (t : Task) : Prop :=
  t.state = .zombie ∧ t.parentPid = self ∧ (pid = -1 ∨ (t.id : Int) = pid)

instance (self : Nat) (pid : Int) (t : Task) : Decidable (Wanted self pid t) :=
  inferInstanceAs (Decidable (_ ∧ _ ∧ _))

/-- The scan for a zombie child; it leaves the loop with the child and its predecessor. -/
def wantedBody (k : Kernel) (self : Nat)
    (pid : Int) : Nat × Nat → Result (Pass (Nat × Nat) (Option (Nat × Nat)))
  | (prev, scan) => do
      if scan = 0 then return .leave none
      else
        let n ← k.node scan
        if Wanted self pid n.task then return .leave (some (prev, scan))
        else return .again (scan, n.next)

/-- Free the kernel stack of a task, if it has one. -/
def freeStack (k : Kernel) (t : Task) : Result Kernel :=
  if t.kstack = 0 then .ok k
  else
    match freeKernelStack k.kernelDirectory k.machine t.id with
    | none => .error .pageFault
    | some m => .ok { k with machine := m }

/-- `prev->next = next`, or the head of the queue when there is no `prev`. -/
def bypass (k : Kernel) (prev next : Nat) : Result Kernel :=
  if prev = 0 then .ok { k with readyQueue := next } else k.setNext prev next

/-- The sweep after a child was reaped: every zombie child of the caller is freed. -/
def sweepBody (self : Nat) : Kernel × Nat × Nat → Result (Pass (Kernel × Nat × Nat) Kernel)
  | (k, p, s) => do
      if s = 0 then return .leave k
      else
        let n ← k.node s
        if n.task.state = .zombie ∧ n.task.parentPid = self ∧ n.task.id ≠ self then
          let k ← bypass k p n.next
          let k ← freeStack k n.task
          return .again (k.kfree s, p, n.next)
        else
          return .again (k, s, n.next)

/-- The check that there are children at all. -/
def childrenBody (k : Kernel) (self scan : Nat) : Result (Pass Nat Bool) := do
  if scan = 0 then return .leave false
  else
    let n ← k.node scan
    if n.task.parentPid = self then return .leave true else return .again n.next

/-- One look of `waitpid`. The argument `options` is ignored by the source. -/
def waitpid (fuel : Nat) (k : Kernel) (pid : Int) (status : Bool) : Result (Waited × Kernel) := do
  let self ← k.node k.currentTask
  match ← Loop.run .spinning (wantedBody k self.task.id pid) fuel (0, k.readyQueue) with
  | some (prev, scan) =>
    let n ← k.node scan
    let k ← freeStack k n.task
    let k ← bypass k prev n.next
    let k := k.kfree scan
    let k ← Loop.run .spinning (sweepBody self.task.id) fuel (k, 0, k.readyQueue)
    return (.reaped n.task.id (if status then some n.task.exitCode else none), k)
  | none =>
    if ← Loop.run .spinning (childrenBody k self.task.id) fuel k.readyQueue then
      return (.again, k)
    else
      return (.echild, k)

/-! ### Signals -/

/-- `sys_signal` -/
def sysSignal (k : Kernel) (sig : Int) (handler : Nat) : Result (Nat × Kernel) := do
  if sig < 1 ∨ sig > 31 ∨ sig = sigkill then return (sigErr, k)
  else
    let n ← k.node k.currentTask
    let k ← k.setTask k.currentTask
      { n.task with signalHandlers := Function.update n.task.signalHandlers sig.toNat handler }
    return (n.task.signalHandlers sig.toNat, k)

/-- The scan of `sys_kill`. -/
def killBody (k : Kernel) (pid : Int) (t : Nat) : Result (Pass Nat Nat) := do
  if t = 0 then return .leave 0
  else
    let n ← k.node t
    if (n.task.id : Int) = pid then return .leave t else return .again n.next

/-- `sys_kill` -/
def sysKill (fuel : Nat) (k : Kernel) (pid sig : Int) : Result (Int × Kernel) := do
  if sig < 1 ∨ sig > 31 then return (-einval, k)
  else if pid = 1 then return (-eperm, k)
  else
    let t ← Loop.run .spinning (killBody k pid) fuel k.readyQueue
    if t = 0 then return (-esrch, k)
    else
      let n ← k.node t
      let k ← k.setTask t
        { n.task with signalPending := n.task.signalPending ||| (1#32 <<< sig.toNat) }
      return (0, k)

end JexOs.Tasks
