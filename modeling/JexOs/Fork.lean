import JexOs.Kheap
import JexOs.Task

/-!
# `fork` with its allocations

In `Task.lean` what `kmalloc` and `clone_page_directory` answer a fork is an argument. Here the two calls
are made: a `System` is the kernel together with the data of its heap, over one memory manager. The
heap's memory is kept apart from the frames that the page tables are read from.
-/

namespace JexOs.Fork

open Tasks (Kernel Result Stop enomem childOf enqueue)
open Kstack (allocKernelStack)

structure System where
  kernel : Kernel
  /-- The memory the heap works in. -/
  mem : ByteMem.Mem
  /-- `caches[i].slab_list`. -/
  slabList : Nat → Nat
  totalCommitted : Nat

namespace System

/-- The heap, with the memory manager of the kernel. -/
def heap (s : System) : Kheap.State :=
  { mem := s.mem
    pmm := s.kernel.machine.pmm
    slabList := s.slabList
    totalCommitted := s.totalCommitted }

def withMachine (s : System) (m : Paging.Machine) : System :=
  { s with kernel := { s.kernel with machine := m } }

def withHeap (s : System) (heap : Kheap.State) : System :=
  { kernel := { s.kernel with machine := { s.kernel.machine with pmm := heap.pmm } }
    mem := heap.mem
    slabList := heap.slabList
    totalCommitted := heap.totalCommitted }

def kfree (s : System) (p : Nat) : System := s.withHeap (Kheap.kfree s.heap p)

end System

/-- `sizeof(task_t)` -/
def taskSize : Nat := 196

/-- `fork` and `kernel_fork`, which differ in what they do when there is no kernel stack to be had:
`freeChild` says whether the structure is freed. -/
def forkTask (freeChild : Bool) (fuel : Nat) (s : System) : Result (Int × System) := do
  let parent ← s.kernel.node s.kernel.currentTask
  match Kheap.kmalloc s.heap taskSize with
  | none => .error .spinning
  | some (child, heap) =>
    let s := s.withHeap heap
    if child = 0 then return (-enomem, s)
    else
      match Paging.clonePageDirectory s.kernel.machine parent.task.pageDirectory with
      | none => .error .pageFault
      | some (newDir, m) =>
        let s := s.withMachine m
        if newDir = 0 then return (-enomem, s.kfree child)
        else
          let pid := s.kernel.nextPid
          let k := { s.kernel with nextPid := pid + 1 }
          match allocKernelStack k.kernelDirectory k.machine pid with
          | none => .error .pageFault
          | some (kstack, m) =>
            let k := { k with machine := m }.setNode child
              { task := { childOf parent.task pid newDir with kstack := kstack }
                next := 0 }
            if kstack = 0 then
              if freeChild then
                return (-enomem, System.kfree { s with kernel := k.kfree child } child)
              else
                return (-enomem, { s with kernel := k })
            else
              return ((pid : Int), { s with kernel := ← enqueue fuel k child })

def fork : (fuel : Nat) → System → Result (Int × System) := forkTask false

def kernelFork : (fuel : Nat) → System → Result (Int × System) := forkTask true

end JexOs.Fork
