import Mathlib.Data.List.Basic

/-!
# The lock validator

`src/kernel/lockdep.c`. A lock is known by its address. The matrix of orders has one row and column
for each place of the stack of held locks, so the model fails where a seventeenth lock would be
recorded. Interrupts are off in every call. Names are left out: a report gives the two locks.
-/

namespace JexOs.Lockdep

open List

abbrev Lock := UInt32

def lockdepMaxLocks : Nat := 16

/-- An entry of `lock_stack`. -/
structure Held where
  lock : Lock
  depth : UInt32
deriving DecidableEq, Repr

/-- The warning `POTENTIAL DEADLOCK`. -/
structure Report where
  held : Lock
  wanted : Lock
  ip : UInt32
deriving DecidableEq, Repr

/-- `edges[i][j]`: the lock at place `i` was taken before the lock at place `j`. -/
abbrev Edges := Nat → Nat → Bool

structure Validator where
  stack : List Held
  edges : Edges
  reports : List Report

def lockdepInit : Validator :=
  { stack := []
    edges := fun _ _ => false
    reports := [] }

def findLock (stack : List Held) (l : Lock) : Option Nat := stack.findIdx? (·.lock == l)

def setEdge (edges : Edges) (i j : Nat) (v : Bool) : Edges :=
  fun a b => if a = i ∧ b = j then v else edges a b

/-! ### The search for a cycle -/

def places : List Nat := List.range lockdepMaxLocks

/-- The places that go into the queue with `cur`. -/
def neighbours (edges : Edges) (visited : Nat → Bool) (cur : Nat) : List Nat :=
  places.filter fun i => edges cur i && !visited i

def unvisited (visited : Nat → Bool) : Nat := places.countP fun i => !visited i

theorem unvisited_mark (edges : Edges) (visited : Nat → Bool) (cur : Nat) :
    unvisited (fun i => visited i || edges cur i) + (neighbours edges visited cur).length =
      unvisited visited := by
  dsimp only [unvisited, neighbours]
  induction places with
  | nil => rfl
  | cons i rest ih =>
    rw [countP_cons, countP_cons, filter_cons]
    cases visited i with
    | true =>
      simp only [Bool.true_or, Bool.not_true, Bool.and_false, Bool.false_eq_true, if_false]
      omega
    | false =>
      cases edges cur i with
      | true =>
        simp only [Bool.false_or, Bool.not_true, Bool.not_false, Bool.and_true,
          Bool.false_eq_true, if_false, eq_self, if_true, length_cons]
        omega
      | false =>
        simp only [Bool.false_or, Bool.not_false, Bool.false_and, Bool.false_eq_true, if_false,
          eq_self, if_true]
        omega

/-- The loop of `check_deadlock`. Every place is put into the queue once at most. -/
def search (edges : Edges) (source : Nat) (visited : Nat → Bool) : List Nat → Bool
  | [] => false
  | cur :: queue =>
    if cur = source then true
    else
      search edges source (fun i => visited i || edges cur i)
        (queue ++ neighbours edges visited cur)
termination_by queue => unvisited visited + queue.length
decreasing_by
  have := unvisited_mark edges visited cur
  rw [length_append, length_cons]
  omega

def checkDeadlock (edges : Edges) (source target : Nat) : Bool :=
  search edges source (fun i => i == target) [target]

section Calls

variable (l : Lock) (ip : UInt32)

/-- One pass of the loop over the held locks. -/
def recordOrder (new : Nat) (v : Validator) (place : Nat × Held) : Validator :=
  let (i, held) := place
  if v.edges i new then v
  else
    let edges := setEdge v.edges i new true
    if checkDeadlock edges i new then
      { v with
        edges := setEdge edges i new false
        reports := v.reports ++
          [{ held := held.lock
             wanted := l
             ip := ip }] }
    else { v with edges := edges }

/-- The new entry, with the edges of its place cleared. -/
def push (v : Validator) : Validator :=
  let new := v.stack.length
  { v with
    edges := fun i j => if i = new ∨ j = new then false else v.edges i j
    stack := v.stack ++
      [{ lock := l
         depth := 1 }] }

def lockdepAcquire (v : Validator) : Option Validator :=
  match findLock v.stack l with
  | some idx =>
    some { v with
      stack := v.stack.modify idx fun held => { held with depth := held.depth + 1 } }
  | none =>
    let new := v.stack.length
    if new < lockdepMaxLocks then
      some (push l ((List.zip (List.range new) v.stack).foldl (recordOrder l ip new) v))
    else none

/-- The edges of the place behind move to place `i`, entry by entry. -/
def moveEdges (edges : Edges) (i : Nat) : Edges :=
  places.foldl (fun edges j =>
    let edges := setEdge edges i j (edges (i + 1) j)
    setEdge edges j i (edges j (i + 1))) edges

def lockdepRelease (v : Validator) : Validator :=
  match findLock v.stack l with
  | none => v
  | some idx =>
    match v.stack[idx]? with
    | none => v
    | some held =>
      if held.depth > 1 then
        { v with
          stack := v.stack.modify idx fun held => { held with depth := held.depth - 1 } }
      else
        let last := v.stack.length - 1
        let edges := (List.range' idx (last - idx)).foldl moveEdges v.edges
        { v with
          edges := fun i j => if i = last ∨ j = last then false else edges i j
          stack := v.stack.eraseIdx idx }

end Calls

inductive Event where
  | acquire (l : Lock) (ip : UInt32)
  | release (l : Lock)
deriving DecidableEq, Repr

def step (v : Validator) : Event → Option Validator
  | .acquire l ip => lockdepAcquire l ip v
  | .release l => some (lockdepRelease l v)

def run (events : List Event) : Option Validator := events.foldlM step lockdepInit

end JexOs.Lockdep
