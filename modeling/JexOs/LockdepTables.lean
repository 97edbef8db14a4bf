import JexOs.Lockdep

/-!
# The tables of the lock validator

The same code of `src/kernel/lockdep.c`, with `lock_stack`, `edges`, `visited` and `queue` as the arrays they
are: every access is checked, and one from index 16 on fails.
-/

namespace JexOs.Lockdep

structure Tables where
  lockStack : Nat → Held
  lockStackDepth : Nat
  edges : Edges
  reports : List Report

namespace Tables

def lockdepInit : Tables :=
  { lockStack := fun _ => ⟨0, 0⟩
    lockStackDepth := 0
    edges := fun _ _ => false
    reports := [] }

section Arrays

variable {α : Type} (array : Nat → α) (edges : Edges) (i j : Nat)

def slot : Option α := if i < lockdepMaxLocks then some (array i) else none

def setSlot (x : α) : Option (Nat → α) :=
  if i < lockdepMaxLocks then some (Function.update array i x) else none

def edgeAt : Option Bool := if i < lockdepMaxLocks ∧ j < lockdepMaxLocks then some (edges i j) else none

def setEdgeAt (v : Bool) : Option Edges :=
  if i < lockdepMaxLocks ∧ j < lockdepMaxLocks then some (setEdge edges i j v) else none

end Arrays

def findLockFrom (stack : Nat → Held) (l : Lock) : Nat → Nat → Option (Option Nat)
  | 0, _ => some none
  | n + 1, i => do
      let held ← slot stack i
      if held.lock = l then some (some i) else findLockFrom stack l n (i + 1)

def findLock (t : Tables) (l : Lock) : Option (Option Nat) :=
  findLockFrom t.lockStack l t.lockStackDepth 0

/-! ### The search for a cycle -/

/-- The first `qtail` entries of `queue` stay in it when they have been read. -/
structure Search where
  visited : Nat → Bool
  queue : List Nat

/-- `visited[i] = 1; queue[qtail++] = i;` -/
def enqueue (s : Search) (i : Nat) : Option Search := do
  let visited ← setSlot s.visited i true
  if s.queue.length < lockdepMaxLocks then
    some
      { visited := visited
        queue := s.queue ++ [i] }
  else none

def visit (edges : Edges) (cur : Nat) (s : Search) (i : Nat) : Option Search := do
  let edge ← edgeAt edges cur i
  let seen ← slot s.visited i
  if edge && !seen then enqueue s i else some s

/-- The loop has no more turns than the queue has entries; without fuel it would fail. -/
def searchLoop (edges : Edges) (source : Nat) : Nat → Nat → Search → Option Bool
  | 0, _, _ => none
  | fuel + 1, qhead, s =>
    match s.queue[qhead]? with
    | none => some false
    | some cur =>
      if cur = source then some true
      else do
        let s ← places.foldlM (visit edges cur) s
        searchLoop edges source fuel (qhead + 1) s

def checkDeadlock (edges : Edges) (source target : Nat) : Option Bool := do
  let s ← enqueue
    { visited := fun _ => false
      queue := [] } target
  searchLoop edges source (lockdepMaxLocks + 1) 0 s

/-! ### The calls -/

section Calls

variable (l : Lock) (ip : UInt32)

/-- One pass of the loop over the held locks. -/
def recordOrder (new : Nat) (t : Tables) (i : Nat) : Option Tables := do
  let edge ← edgeAt t.edges i new
  if edge then some t
  else
    let edges ← setEdgeAt t.edges i new true
    let found ← checkDeadlock edges i new
    if found then
      let held ← slot t.lockStack i
      let edges ← setEdgeAt edges i new false
      some { t with
        edges := edges
        reports := t.reports ++
          [{ held := held.lock
             wanted := l
             ip := ip }] }
    else some { t with edges := edges }

/-- `edges[place][i] = 0; edges[i][place] = 0;` for all `i`. -/
def clearEdges (place : Nat) (edges : Edges) : Option Edges :=
  places.foldlM (fun edges i => do
    let edges ← setEdgeAt edges place i false
    setEdgeAt edges i place false) edges

def setDepth (t : Tables) (idx : Nat) (change : UInt32 → UInt32) : Option Tables := do
  let held ← slot t.lockStack idx
  let stack ← setSlot t.lockStack idx { held with depth := change held.depth }
  some { t with lockStack := stack }

def lockdepAcquire (t : Tables) : Option Tables := do
  match ← findLock t l with
  | some idx => setDepth t idx (· + 1)
  | none =>
    let new := t.lockStackDepth
    let t ← (List.range new).foldlM (recordOrder l ip new) t
    if new < lockdepMaxLocks then
      let edges ← clearEdges new t.edges
      let stack ← setSlot t.lockStack new
        { lock := l
          depth := 1 }
      some { t with
        edges := edges
        lockStack := stack
        lockStackDepth := new + 1 }
    else some t

/-- The row and the column of place `i + 1` move to place `i`, entry by entry. -/
def moveEdges (i : Nat) (edges : Edges) : Option Edges :=
  places.foldlM (fun edges j => do
    let row ← edgeAt edges (i + 1) j
    let edges ← setEdgeAt edges i j row
    let column ← edgeAt edges j (i + 1)
    setEdgeAt edges j i column) edges

/-- The `n` entries behind entry `i` move down by one. -/
def shiftDown : Nat → Nat → Tables → Option Tables
  | 0, _, t => some t
  | n + 1, i, t => do
      let held ← slot t.lockStack (i + 1)
      let stack ← setSlot t.lockStack i held
      let edges ← moveEdges i t.edges
      shiftDown n (i + 1)
        { t with
          lockStack := stack
          edges := edges }

def lockdepRelease (t : Tables) : Option Tables := do
  match ← findLock t l with
  | none => some t
  | some idx =>
    let held ← slot t.lockStack idx
    if held.depth > 1 then setDepth t idx (· - 1)
    else
      let last := t.lockStackDepth - 1
      let t ← shiftDown (last - idx) idx t
      let edges ← clearEdges last t.edges
      some { t with
        edges := edges
        lockStackDepth := last }

end Calls

def step (t : Tables) : Event → Option Tables
  | .acquire l ip => lockdepAcquire l ip t
  | .release l => lockdepRelease l t

def run (events : List Event) : Option Tables := events.foldlM step lockdepInit

end Tables

end JexOs.Lockdep
