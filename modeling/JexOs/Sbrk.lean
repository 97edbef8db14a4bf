import JexOs.Paging

/-!
# User memory: the heap and the stack

`sbrk` of `src/mm/sbrk.c` and `map_user_stack` of `src/kernel/exec.c`. Both take frames one by one,
map each with user access, and on failure give back the frames taken so far.
-/

namespace JexOs.Sbrk

open Paging (Machine allocBlock mapPage enomem)

structure State where
  machine : Machine
  /-- `program_break`, null before the first call. -/
  programBreak : Nat
  /-- `heap_end`, the first address above the mapped heap pages. -/
  heapEnd : Nat

def heapStart : Nat := 0x1000000
def sbrkMaxPages : Nat := 128

/-- `(void*)-1` -/
def failed : Nat := 0xFFFFFFFF

/-- The loops that give frames back. -/
def freeFrames (frames : List Nat) (m : Machine) : Machine :=
  { m with pmm := frames.foldl Pmm.pmmFreeBlock m.pmm }

/-- The failure path of `sbrk`. -/
def rollback (frames : List Nat) (s : State) : State :=
  { s with
    machine := freeFrames frames s.machine
    heapEnd := (s.heapEnd + 2 ^ 32 - frames.length * 4096) % 2 ^ 32 }

/-- The growing loop; `room` is what `alloc_frames` can still hold. The flag tells success. -/
def growHeap (newBreak : Nat) : (room : Nat) → List Nat → State → Option (Bool × State)
  | 0, frames, s =>
    if newBreak > s.heapEnd then
      -- a frame is taken before the room is checked, and is not among those given back
      let (_, m) := allocBlock s.machine
      some (false, rollback frames { s with machine := m })
    else
      some (true, s)
  | room + 1, frames, s =>
    if newBreak > s.heapEnd then do
      let (frame, m) := allocBlock s.machine
      if frame = 0 then some (false, rollback frames { s with machine := m })
      else
        let (r, m) ← mapPage m frame s.heapEnd 7
        if r < 0 then some (false, rollback (frames ++ [frame]) { s with machine := m })
        else
          growHeap newBreak room (frames ++ [frame])
            { s with
              machine := m
              heapEnd := (s.heapEnd + 4096) % 2 ^ 32 }
    else
      some (true, s)

/-- The first call sets the break. -/
def start (s : State) : State :=
  if s.programBreak = 0 then
    { s with
      programBreak := heapStart
      heapEnd := heapStart }
  else s

/-- `sbrk`, for a 32-bit `increment`. -/
def sbrk (s : State) (increment : Int) : Option (Nat × State) :=
  let s := start s
  let newBreak := (s.programBreak + increment.toNat) % 2 ^ 32
  if increment = 0 then some (s.programBreak, s)
  else if increment > 0 ∧ (increment.toNat > 0x1F000000 ∨ newBreak < s.programBreak) then
    some (failed, s)
  else if increment < 0 ∧
      (-increment).toNat > (s.programBreak + 2 ^ 32 - heapStart) % 2 ^ 32 then
    some (failed, s)
  else if increment > 0 then do
    let (done, s') ← growHeap newBreak sbrkMaxPages [] s
    if done then some (s.programBreak, { s' with programBreak := newBreak })
    else some (failed, s')
  else
    let newVal := (s.programBreak + 2 ^ 32 - (-increment).toNat) % 2 ^ 32
    some (s.programBreak, { s with programBreak := max newVal heapStart })

def userStackBase : Nat := 0x800000
def userStackPages : Nat := 256
def userStackLow : Nat := 0x700000

/-- The loop of `map_user_stack`, with `n` pages left, `page` the next one. -/
def mapStackPages : (n page : Nat) → List Nat → Machine → Option (Int × Machine)
  | 0, _, _, m => some (0, m)
  | n + 1, page, frames, m =>
    if page ≥ userStackLow then do
      let (frame, m) := allocBlock m
      if frame = 0 then some (enomem, freeFrames frames m)
      else
        let (r, m) ← mapPage m frame page 7
        if r < 0 then some (enomem, freeFrames (frames ++ [frame]) m)
        else mapStackPages n (page - 0x1000) (frames ++ [frame]) m
    else
      some (0, m)

def mapUserStack (m : Machine) : Option (Int × Machine) :=
  mapStackPages userStackPages (userStackBase - 0x1000) [] m

end JexOs.Sbrk
