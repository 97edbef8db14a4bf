import JexOs.Fork
import JexOs.Proof.KheapSmall
import JexOs.Proof.KstackExact
import JexOs.Proof.SbrkTasks
import JexOs.Proof.Task

/-!
# A fork that runs out of memory

`Unchanged` is what a fork that fails should come to, and `Undoes` says from the state before when it does: the
structure must come out of a slab that is there already, and the frames must run out before the clone has
copied a user page.
-/

namespace JexOs.Fork

open Paging (Machine Layout CopySafe Deep UserPte Free Intact Structural Cloning Reaches framesBefore
  pagesBelow currentPageDir present entryFor)
open Kstack (StackTable Restored)
open Kheap (HasFree Tracks Served Block Occupied sizeClass)
open Tasks (Kernel Queued enomem)
open Pmm (Lent SameFrames freeBelow totalBlocks)

/-- `CopySafe` for one frame more: a slab may take the lowest one first. -/
structure ForkSafe (m : Machine) : Prop extends CopySafe m where
  spare : ∀ f, Free m f → freeBelow m.pmm f = framesBefore m 1024 → Intact m f

/-- The kernel is in a state in which a fork can be asked for; `live` are the blocks of the heap. -/
structure Consistent (kt : Nat) (live : List Block) (s : System) : Prop where
  layout : Layout s.kernel.machine
  safe : ForkSafe s.kernel.machine
  /-- The running task's directory is loaded. -/
  running : ∀ n, s.kernel.nodes s.kernel.currentTask = some n →
    n.task.pageDirectory = currentPageDir s.kernel.machine
  table : StackTable s.kernel.machine kt
  count : 1 ≤ s.kernel.nextPid ∧ s.kernel.nextPid ≤ 256
  heap : ∃ reserved env slabs free, (∀ f, f < Pmm.kernelPages → reserved f = true) ∧
    Kheap.Inv reserved s.heap live env slabs free ∧ Occupied slabs free live

/-- The blocks of the heap, the allocated frames, the stacks and the ready queue are as they were. -/
structure Unchanged (kt : Nat) (live : List Block) (s s' : System) : Prop where
  blocks : Tracks s'.heap live
  frames : SameFrames s.kernel.machine.pmm s'.kernel.machine.pmm
  slots : ∀ n, present (s'.kernel.machine.phys kt n) ↔ present (s.kernel.machine.phys kt n)
  queue : ∀ q, Queued s'.kernel q ↔ Queued s.kernel q

def freeFrames (m : Machine) : Nat := freeBelow m.pmm totalBlocks

def Undoes (s : System) : Prop :=
  (¬HasFree s.heap (sizeClass taskSize) ∧ freeFrames s.kernel.machine = 0) ∨
    HasFree s.heap (sizeClass taskSize) ∧
      freeFrames s.kernel.machine < framesBefore s.kernel.machine 1024 ∧
      ¬Reaches s.kernel.machine (freeFrames s.kernel.machine)

section

variable {m : Machine} {g f kt k : Nat}

theorem freeBelow_markUsed (s : Pmm.State) (g f : Nat) :
    freeBelow s f ≤ freeBelow (s.markUsed g) f + if g < f then 1 else 0 := by
  induction f with
  | zero => exact Nat.zero_le _
  | succ f ih =>
    have hbit : Bitmap.test (s.markUsed g).bitmap f = (decide (f = g) || Bitmap.test s.bitmap f) :=
      Bitmap.test_set s.bitmap g f
    rw [Pmm.freeBelow_succ, Pmm.freeBelow_succ, hbit]
    by_cases heq : f = g
    · subst heq
      rw [if_neg (lt_irrefl f)] at ih
      rw [if_pos (Nat.lt_succ_self f)]
      split <;> omega
    · rw [decide_eq_false heq, Bool.false_or]
      split at ih <;> split <;> split <;> omega

theorem layout_slab (h : Layout m) (hg : Free m g) : Layout { m with pmm := m.pmm.markUsed g } :=
  h.of_pde_eq rfl rfl (h.booted.markUsed hg.1 hg.2)
    (fun f hf => by simp only [Pmm.State.markUsed, Bitmap.test_set, hf, Bool.or_true])
    (fun _ => rfl)

theorem free_slab (h : Free { m with pmm := m.pmm.markUsed g } f) : Free m f := by
  refine ⟨h.1, ?_⟩
  have hclear := h.2
  simp only [Pmm.State.markUsed, Bitmap.test_set, Bool.or_eq_false_iff] at hclear
  exact hclear.2

theorem ForkSafe.slab (h : ForkSafe m) : CopySafe { m with pmm := m.pmm.markUsed g } :=
  { dir :=
      { range := h.dir.range
        table := h.dir.table
        page := h.dir.page
        frame := h.dir.frame }
    pages := fun i j hi hj hdeep huser => by
      obtain ⟨hnot, hplain, hintact⟩ := h.pages i j hi hj hdeep huser
      exact ⟨fun hfree => hnot (free_slab hfree), hplain,
        { range := hintact.range
          table := hintact.table
          page := hintact.page
          frame := hintact.frame }⟩
    frames := fun f hfree hbelow => by
      have hold := free_slab hfree
      have hle := freeBelow_markUsed m.pmm g f
      have hbelow' : freeBelow (m.pmm.markUsed g) f < framesBefore m 1024 := hbelow
      have hintact : Intact m f := by
        rcases lt_or_ge (freeBelow m.pmm f) (framesBefore m 1024) with hlt | hge
        · exact h.frames f hold hlt
        · refine h.spare f hold ?_
          split at hle <;> omega
      exact
        { range := hintact.range
          table := hintact.table
          page := hintact.page
          frame := hintact.frame } }

theorem stack_words (ht : StackTable m kt) {m' : Machine} (hc : Cloning m m' k) (n : Nat) :
    m'.phys kt n = m.phys kt n := by
  have hpde : m.pde 1023 = entryFor (kt * 4096) 3 := ht.dir.table
  have hframe : Paging.frameOf (m.pde 1023) = kt := by rw [hpde, Paging.frameOf_entryFor_frame]
  have hpresent : present (m.pde 1023) := by rw [hpde, Paging.present_entryFor]
  have hwords := hc.pte 1023 (by decide) (by decide) hpresent n
  unfold Machine.pte at hwords
  rw [hc.pde, hframe] at hwords
  rcases hwords with hsame | ⟨f, hfresh, hdiv, -⟩
  · exact hsame
  · have hf := hfresh.1.1
    unfold totalBlocks Pmm.blockSize at hf
    omega

theorem stackTable_cloned (ht : StackTable m kt) {m' : Machine} (hc : Cloning m m' k)
    (pmm : Pmm.State) : StackTable { m' with pmm := pmm } kt := by
  have hwords := stack_words ht hc
  exact StackTable.pmm
    { active := hc.active.trans ht.active
      dir :=
        { apart := hc.dir ▸ ht.dir.apart
          window := ((hc.pde 1022).trans ht.dir.window).trans (by rw [hc.dir])
          table := (hc.pde 1023).trans ht.dir.table }
      self := (hwords 0).trans ht.self
      gap := fun j hlow hhigh => by
        rw [hwords j]
        exact ht.gap j hlow hhigh } pmm

end

def withChild (k : Kernel) (parent : Tasks.Task) (child newDir kstack : Nat) (m : Machine) : Kernel :=
  { k with
    nextPid := k.nextPid + 1
    machine := m }.setNode child
      { task := { Tasks.childOf parent k.nextPid newDir with kstack := kstack }
        next := 0 }

inductive Ended (freeChild : Bool) (fuel : Nat) (s₁ : System) (parent : Tasks.Task) (child : Nat) :
    Int → System → Prop
  | refused (hnull : child = 0) : Ended freeChild fuel s₁ parent child (-enomem) s₁
  | uncloned (m : Machine) (hchild : child ≠ 0)
      (hclone : Paging.clonePageDirectory s₁.kernel.machine parent.pageDirectory = some (0, m)) :
      Ended freeChild fuel s₁ parent child (-enomem) ((s₁.withMachine m).kfree child)
  | unstacked (newDir : Nat) (m m' : Machine) (hchild : child ≠ 0) (hdir : newDir ≠ 0)
      (hclone : Paging.clonePageDirectory s₁.kernel.machine parent.pageDirectory = some (newDir, m))
      (hstack : Kstack.allocKernelStack s₁.kernel.kernelDirectory m s₁.kernel.nextPid = some (0, m')) :
      Ended freeChild fuel s₁ parent child (-enomem)
        (if freeChild then
          System.kfree
            { s₁ with kernel := (withChild s₁.kernel parent child newDir 0 m').kfree child } child
        else { s₁ with kernel := withChild s₁.kernel parent child newDir 0 m' })
  | forked (newDir kstack : Nat) (m m' : Machine) (k : Kernel) (hchild : child ≠ 0) (hdir : newDir ≠ 0)
      (hclone : Paging.clonePageDirectory s₁.kernel.machine parent.pageDirectory = some (newDir, m))
      (hstack : Kstack.allocKernelStack s₁.kernel.kernelDirectory m s₁.kernel.nextPid =
        some (kstack, m'))
      (hkstack : kstack ≠ 0)
      (hqueue : Tasks.enqueue fuel (withChild s₁.kernel parent child newDir kstack m') child = .ok k) :
      Ended freeChild fuel s₁ parent child s₁.kernel.nextPid { s₁ with kernel := k }

theorem forkTask_ended {freeChild : Bool} {fuel : Nat} {s s' : System} {r : Int}
    (hrun : forkTask freeChild fuel s = .ok (r, s')) :
    ∃ parent child heap, s.kernel.nodes s.kernel.currentTask = some parent ∧
      Kheap.kmalloc s.heap taskSize = some (child, heap) ∧
      Ended freeChild fuel (s.withHeap heap) parent.task child r s' := by
  unfold forkTask Kernel.node at hrun
  cases hparent : s.kernel.nodes s.kernel.currentTask with
  | none =>
    rw [hparent] at hrun
    cases hrun
  | some parent =>
    rw [hparent] at hrun
    cases hkmalloc : Kheap.kmalloc s.heap taskSize with
    | none =>
      rw [hkmalloc] at hrun
      cases hrun
    | some answer =>
      obtain ⟨child, heap⟩ := answer
      rw [hkmalloc] at hrun
      refine ⟨parent, child, heap, rfl, rfl, ?_⟩
      simp only [bind, Except.bind] at hrun
      by_cases hchild : child = 0
      · rw [if_pos hchild] at hrun
        cases hrun
        exact .refused hchild
      rw [if_neg hchild] at hrun
      cases hclone : Paging.clonePageDirectory (s.withHeap heap).kernel.machine parent.task.pageDirectory with
      | none =>
        rw [hclone] at hrun
        cases hrun
      | some answer =>
        obtain ⟨newDir, m⟩ := answer
        rw [hclone] at hrun
        simp only at hrun
        by_cases hdir : newDir = 0
        · rw [if_pos hdir] at hrun
          cases hrun
          exact .uncloned m hchild (hdir ▸ hclone)
        rw [if_neg hdir] at hrun
        cases hstack : Kstack.allocKernelStack s.kernel.kernelDirectory m s.kernel.nextPid with
        | none =>
          simp only [System.withMachine, System.withHeap, hstack] at hrun
          cases hrun
        | some answer =>
          obtain ⟨kstack, m'⟩ := answer
          simp only [System.withMachine, System.withHeap, hstack] at hrun
          by_cases hkstack : kstack = 0
          · subst hkstack
            have hend : Ended freeChild fuel (s.withHeap heap) parent.task child (-enomem) _ :=
              .unstacked newDir m m' hchild hdir hclone hstack
            cases freeChild with
            | false =>
              cases hrun
              exact hend
            | true =>
              cases hrun
              exact hend
          · rw [if_neg hkstack] at hrun
            split at hrun
            · cases hrun
            · next k hqueue =>
                cases hrun
                exact .forked newDir kstack m m' k hchild hdir hclone hstack hkstack hqueue

theorem fork_unstacked {fuel child newDir : Nat} {s : System} {parent : Tasks.Node} {heap : Kheap.State}
    {m m' : Machine} (hparent : s.kernel.nodes s.kernel.currentTask = some parent)
    (hkmalloc : Kheap.kmalloc s.heap taskSize = some (child, heap)) (hchild : child ≠ 0)
    (hclone : Paging.clonePageDirectory (s.withHeap heap).kernel.machine parent.task.pageDirectory =
      some (newDir, m)) (hdir : newDir ≠ 0)
    (hstack : Kstack.allocKernelStack s.kernel.kernelDirectory m s.kernel.nextPid = some (0, m')) :
    fork fuel s = .ok (-enomem, { s.withHeap heap with
      kernel := withChild (s.withHeap heap).kernel parent.task child newDir 0 m' }) := by
  unfold System.withHeap at hclone
  simp [fork, forkTask, Kernel.node, hparent, hkmalloc, hchild, hdir, bind, Except.bind, pure, Except.pure,
    System.withHeap, System.withMachine, hclone, hstack, withChild]

section

variable {kt fuel child : Nat} {freeChild : Bool} {live : List Block} {s s₁ s' : System}
  {reserved : Nat → Bool} {env : List Pmm.Alloc}

theorem Ended.null {parent : Tasks.Task} {r : Int} (h : Ended freeChild fuel s₁ parent child r s')
    (hnull : child = 0) : s' = s₁ := by
  cases h with
  | refused => rfl
  | uncloned _ hchild => exact absurd hnull hchild
  | unstacked _ _ _ hchild => exact absurd hnull hchild
  | forked _ _ _ _ _ hchild => exact absurd hnull hchild

theorem Ended.frames {parent : Tasks.Task} {r : Int} (h : Ended freeChild fuel s₁ parent child r s')
    (hfailed : r = -enomem) (hrunning : parent.pageDirectory = currentPageDir s₁.kernel.machine)
    (hlayout : Layout s₁.kernel.machine) (hsafe : CopySafe s₁.kernel.machine)
    (ht : StackTable s₁.kernel.machine kt) (hcount : 1 ≤ s₁.kernel.nextPid ∧ s₁.kernel.nextPid ≤ 256)
    (hserved : Served reserved live env taskSize child s₁.heap) :
    ∃ frames, Lent s₁.kernel.machine.pmm s'.kernel.machine.pmm frames ∧
      (frames = [] ↔ freeFrames s₁.kernel.machine < framesBefore s₁.kernel.machine 1024 ∧
        ¬Reaches s₁.kernel.machine (freeFrames s₁.kernel.machine)) ∧
        (frames = [] → Unchanged kt live s₁ s') := by
  obtain ⟨dst, m', frames, hclone, hlent, ⟨m₂, k, hc, hm'⟩, hend⟩ :=
    Paging.clonePageDirectory_frames hlayout hsafe
  have hfree := hserved.kfree (show taskSize ≤ Kheap.slabMaxSize by decide)
  rw [← hrunning] at hclone
  cases h with
  | refused hnull => exact absurd hnull hserved.ne_zero
  | uncloned m hchild hclone' =>
    rw [hclone'] at hclone
    cases hclone
    obtain ⟨hfew, hcopied, -⟩ := hend
    obtain ⟨hpmm, htracks⟩ := hfree m'.pmm
    have hpmm' : ((s₁.withMachine m').kfree child).kernel.machine.pmm = m'.pmm := hpmm
    refine ⟨frames, by rwa [hpmm'], ?_, fun hnil => ?_⟩
    · rw [← not_iff_not, not_and, not_not]
      exact ⟨fun hne _ => hcopied.mp hne, fun hreach => hcopied.mpr (hreach hfew)⟩
    · exact
        { blocks := htracks
          frames := by
            rw [hpmm']
            exact hlent.same_iff.mpr hnil
          slots := fun n => by
            have hword := stack_words ht hc n
            rw [← hword]
            have hphys : m'.phys = m₂.phys := by rw [hm']
            rw [← hphys]
            exact Iff.rfl
          queue := fun q => ⟨fun hq => ⟨hq.seg, hq.nodup, hq.nonnull⟩,
            fun hq => ⟨hq.seg, hq.nodup, hq.nonnull⟩⟩ }
  | unstacked newDir m m₃ hchild hdir hclone' hstack =>
    rw [hclone'] at hclone
    cases hclone
    rw [if_neg hdir] at hend
    obtain ⟨hmany, hframes, -⟩ := hend
    have ht' : StackTable m' kt := hm' ▸ stackTable_cloned ht hc m'.pmm
    have hzero : Bitmap.test m'.pmm.bitmap 0 = true := hlent.reserved (hlayout.booted.kernel 0 (by decide))
    have hsame := (Kstack.allocKernelStack_failed ht' hzero hcount.1 hcount.2 hstack).frames
    refine ⟨frames, ?_, iff_of_false hframes fun hfew => ?_, fun hnil => absurd hnil hframes⟩
    · cases freeChild with
      | false => exact hlent.same_frames hsame
      | true =>
        have hpmm := (hfree m₃.pmm).1
        exact hlent.same_frames (by rwa [← hpmm] at hsame)
    · exact absurd hfew.1 (not_lt.mpr hmany)
  | forked newDir kstack m m₃ k' hchild hdir hclone' hstack hkstack hqueue =>
    unfold enomem at hfailed
    omega

theorem System.withHeap_machine (heap : Kheap.State) (hpmm : heap.pmm = s.kernel.machine.pmm) :
    (s.withHeap heap).kernel.machine = s.kernel.machine := by
  unfold System.withHeap
  rw [hpmm]

theorem freeFrames_eq_zero {m : Machine} (h : Layout m) (hfull : Pmm.pmmAllocBlock m.pmm = (0, m.pmm)) :
    freeFrames m = 0 := by
  rcases (Pmm.Taken.start h.booted).alloc with ⟨hle, -⟩ | ⟨f, -, hclear, -, -, halloc, -⟩
  · exact Nat.le_zero.mp hle
  · rw [hfull] at halloc
    have hlow : 512 ≤ f := h.booted.kernelPages_le hclear
    have haddr : 0 = f * Pmm.blockSize := congrArg Prod.fst halloc
    unfold Pmm.blockSize at haddr
    omega

theorem forkTask_unchanged_iff (h : Consistent kt live s)
    (hrun : forkTask freeChild fuel s = .ok (-enomem, s')) : Unchanged kt live s s' ↔ Undoes s := by
  obtain ⟨parent, child, heap, hparent, hkmalloc, hended⟩ := forkTask_ended hrun
  obtain ⟨reserved, env, slabs, free, hkernel, hinv, hoccupied⟩ := h.heap
  obtain ⟨p, heap', hserve, hfrom⟩ := Kheap.kmalloc_small hkernel hinv hoccupied
    (show 0 < taskSize by decide) (show taskSize ≤ Kheap.slabMaxSize by decide)
  rw [hkmalloc] at hserve
  cases hserve
  have hrunning := h.running parent hparent
  rcases hfrom with ⟨hfree, hpmm, hserved⟩ | ⟨hfree, ⟨hfull, rfl, rfl⟩ | ⟨f, hf, hclear, hnew, hpmm, hserved⟩⟩
  · -- an object of a slab that is there: what the clone leaves is all
    have hmachine := System.withHeap_machine heap hpmm
    obtain ⟨frames, hlent, hiff, hclean⟩ := hended.frames rfl hrunning (by rw [hmachine]; exact h.layout)
      (by rw [hmachine]; exact h.safe.toCopySafe) (by rw [hmachine]; exact h.table) h.count hserved
    rw [hmachine] at hlent hiff
    have hundoes : Undoes s ↔ frames = [] := by
      rw [hiff]
      exact ⟨fun hor => hor.elim (fun hno => absurd hfree hno.1) (·.2), fun hfew => .inr ⟨hfree, hfew⟩⟩
    rw [hundoes]
    refine ⟨fun hsame => hlent.same_iff.mp hsame.frames, fun hnil => ?_⟩
    have hsame := hclean hnil
    exact
      { blocks := hsame.blocks
        frames := hlent.same_iff.mpr hnil
        slots := fun n => by
          rw [hsame.slots n, hmachine]
        queue := fun q => (hsame.queue q).trans ⟨fun hq => ⟨hq.seg, hq.nodup, hq.nonnull⟩,
          fun hq => ⟨hq.seg, hq.nodup, hq.nonnull⟩⟩ }
  · -- nothing was taken
    obtain rfl := hended.null rfl
    refine iff_of_true ?_ (.inl ⟨hfree, freeFrames_eq_zero h.layout hfull⟩)
    exact
      { blocks := hinv.tracks hoccupied
        frames := SameFrames.refl s.kernel.machine.pmm
        slots := fun _ => Iff.rfl
        queue := fun _ => Iff.rfl }
  · -- the frame of the new slab stays with the cache
    have hslab : Free s.kernel.machine f := ⟨hf, hclear⟩
    have hmachine : (s.withHeap heap).kernel.machine =
        { s.kernel.machine with pmm := s.kernel.machine.pmm.markUsed f } := by
      unfold System.withHeap
      rw [hpmm]
      rfl
    obtain ⟨frames, hlent, -, -⟩ :=
      hended.frames rfl hrunning (by rw [hmachine]; exact layout_slab h.layout hslab)
      (by rw [hmachine]; exact h.safe.slab) (by rw [hmachine]; exact h.table.pmm _) h.count hserved
    have htaken := ((Lent.refl s.kernel.machine.pmm).take hf hclear).trans (by rwa [hmachine] at hlent)
    refine iff_of_false (fun hsame => ?_) ?_
    · have hnil := htaken.same_iff.mp hsame.frames
      simp at hnil
    · rintro (⟨-, hzero⟩ | ⟨hhas, -⟩)
      · have hle := ((Lent.refl s.kernel.machine.pmm).take hf hclear).length_le
        rw [List.length_singleton] at hle
        unfold freeFrames at hzero
        omega
      · exact hfree hhas

end

def shellSystem (m : Machine) (heap : Kheap.State) (p nextPid : Nat) : System where
  kernel :=
    { machine := { m with pmm := heap.pmm }
      kernelDirectory := m.dir
      nodes := Function.update (fun _ => none) p (some
        { task := Tasks.initTask (m.dir * 4096) (Kstack.stackBase 1)
          next := 0 })
      currentTask := p
      readyQueue := p
      nextPid := nextPid }
  mem := heap.mem
  slabList := heap.slabList
  totalCommitted := heap.totalCommitted

theorem shell_node (m : Machine) (heap : Kheap.State)
    (p n : Nat) : (shellSystem m heap p n).kernel.nodes p = some
      { task := Tasks.initTask (m.dir * 4096) (Kstack.stackBase 1)
        next := 0 } := by
  simp only [shellSystem, Function.update_self]

section

variable {m : Machine} {heap : Kheap.State} {p : Nat} (hs : Paging.Started Paging.bootMachine m)

include hs

theorem shell_served : ∃ p heap, Served (Bitmap.test m.pmm.bitmap) [] [] taskSize p heap ∧
    heap.pmm = m.pmm.markUsed 641 := by
  have hbooted := hs.layout.booted
  obtain ⟨p, heap, -, hfrom⟩ := Kheap.kmalloc_small hbooted.kernel
    (Kheap.initKheap_inv hbooted.counted fun _ => 0) (Kheap.occupied_none _ _)
    (show 0 < taskSize by decide) (show taskSize ≤ Kheap.slabMaxSize by decide)
  have hlowest : Pmm.pmmAllocBlock m.pmm = (641 * Pmm.blockSize, m.pmm.markUsed 641) := by
    obtain ⟨hfull, -⟩ | ⟨f, hf, hclear, hlow, -, halloc⟩ := Pmm.pmmAllocBlock_cases hbooted
    · have hset := hfull 641 (by decide)
      rw [(Paging.heap_clear_iff hs (by decide)).mpr le_rfl] at hset
      cases hset
    · have hge := (Paging.heap_clear_iff hs hf).mp hclear
      have hle : f ≤ 641 := by
        by_contra hgt
        have hset := hlow 641 (by omega)
        rw [(Paging.heap_clear_iff hs (by decide)).mpr le_rfl] at hset
        cases hset
      obtain rfl : f = 641 := by omega
      exact halloc
  have hpmm : (Kheap.initKheap (fun _ => 0) m.pmm).pmm = m.pmm := rfl
  rw [hpmm, hlowest] at hfrom
  rcases hfrom with ⟨⟨slabs, hchain, b, hb, -⟩, -⟩ | ⟨-, ⟨hnone, -⟩ | ⟨f, -, -, halloc, hheap, hserved⟩⟩
  · obtain rfl : slabs = [] := hchain.unique (show Linked.Chain _ 0 0 [] from rfl)
    cases hb
  · cases congrArg Prod.fst hnone
  · obtain rfl : 641 = f := Nat.mul_right_cancel (by decide) (congrArg Prod.fst halloc)
    exact ⟨p, heap, hserved, hheap⟩

variable (hserved : Served (Bitmap.test m.pmm.bitmap) [] [] taskSize p heap)
  (hpmm : heap.pmm = m.pmm.markUsed 641)

include hpmm

omit hserved in
theorem shell_layout : Layout { m with pmm := heap.pmm } := by
  rw [hpmm]
  exact layout_slab hs.layout ⟨by decide, (Paging.heap_clear_iff hs (by decide)).mpr le_rfl⟩

omit hserved in
theorem shell_safe : ForkSafe { m with pmm := heap.pmm } := by
  have hintact : ∀ f, Free { m with pmm := heap.pmm } f → Intact m f := fun f hfree => by
    rw [hpmm] at hfree
    exact hs.intact f hfree.1 (.inr (free_slab hfree).2)
  have hdir := hs.intact m.dir hs.layout.dirTaken.1 (.inl hs.dirLow)
  have hmove : ∀ f, Intact m f → Intact { m with pmm := heap.pmm } f := fun f h =>
    { range := h.range
      table := h.table
      page := h.page
      frame := h.frame }
  exact
    { dir := hmove m.dir hdir
      pages := fun i j hi hj hdeep huser => absurd huser.2 (hs.kernelPte i hi hdeep.1 j hj)
      frames := fun f hfree _ => hmove f (hintact f hfree)
      spare := fun f hfree _ => hmove f (hintact f hfree) }

include hserved

theorem shell_consistent {n : Nat} (hn : 1 ≤ n ∧ n ≤ 256) :
    ∃ kt, Consistent kt [⟨p, taskSize⟩] (shellSystem m heap p n) := by
  obtain ⟨kt, ht, -⟩ := Kstack.Started.exists_stackTable hs
  obtain ⟨slabs, free, hinv, hoccupied⟩ := hserved.inv
  refine ⟨kt,
    { layout := shell_layout hs hpmm
      safe := shell_safe hs hpmm
      running := fun node hnode => ?_
      table := ht.pmm heap.pmm
      count := hn
      heap := ⟨_, [], slabs, free, hs.layout.booted.kernel, hinv, hoccupied⟩ }⟩
  rw [show (shellSystem m heap p n).kernel.currentTask = p from rfl, shell_node] at hnode
  cases hnode
  rfl

omit hserved in
theorem shell_room : framesBefore { m with pmm := heap.pmm } 1024 + 1 ≤
    freeFrames { m with pmm := heap.pmm } := by
  have hframes := Sbrk.started_framesBefore hs
  have hsame : framesBefore { m with pmm := heap.pmm } 1024 = framesBefore m 1024 := rfl
  have hroom := Sbrk.boot_freeBelow hs 4 (by decide)
  have hmono : freeBelow m.pmm (641 + 4) ≤ freeBelow m.pmm totalBlocks := Nat.count_monotone _ (by decide)
  have hslab := freeBelow_markUsed m.pmm 641 totalBlocks
  rw [if_pos (by decide), ← hpmm] at hslab
  exact (show framesBefore { m with pmm := heap.pmm } 1024 + 1 ≤ freeBelow heap.pmm totalBlocks by omega)

theorem shell_fork_fails : ∃ kt live s s', Consistent kt live s ∧ fork 0 s = .ok (-enomem, s') ∧
    ¬Tracks s'.heap live := by
  obtain ⟨kt, h⟩ := shell_consistent hs hserved hpmm (show 1 ≤ 128 ∧ 128 ≤ 256 by decide)
  obtain ⟨reserved, env, slabs, free, hkernel, hinv, hoccupied⟩ := h.heap
  obtain ⟨child, heap₁, hkmalloc, hfrom⟩ := Kheap.kmalloc_small hkernel hinv hoccupied
    (show 0 < taskSize by decide) (show taskSize ≤ Kheap.slabMaxSize by decide)
  have hroom := shell_room hs hpmm
  have hready : Served reserved [⟨p, taskSize⟩] env taskSize child heap₁ ∧
      Layout { m with pmm := heap₁.pmm } ∧ CopySafe { m with pmm := heap₁.pmm } ∧
      framesBefore { m with pmm := heap₁.pmm } 1024 ≤ freeFrames { m with pmm := heap₁.pmm } := by
    rcases hfrom with ⟨-, hsame, hserved₁⟩ | ⟨-, ⟨hfull, -⟩ | ⟨f, hf, hclear, -, htaken, hserved₁⟩⟩
    · rw [hsame]
      exact ⟨hserved₁, h.layout, h.safe.toCopySafe, by exact Nat.le_of_succ_le hroom⟩
    · have hnone := freeFrames_eq_zero h.layout hfull
      have hsome : 0 < freeFrames { m with pmm := heap.pmm } := by omega
      exact absurd hnone hsome.ne'
    · rw [htaken]
      refine ⟨hserved₁, layout_slab h.layout ⟨hf, hclear⟩, h.safe.slab, ?_⟩
      have hslab := freeBelow_markUsed heap.pmm f totalBlocks
      rw [if_pos hf] at hslab
      have hroom' : framesBefore { m with pmm := heap.pmm } 1024 + 1 ≤ freeBelow heap.pmm totalBlocks := hroom
      exact (show framesBefore { m with pmm := heap.pmm } 1024 ≤
        freeBelow (heap.pmm.markUsed f) totalBlocks by omega)
  obtain ⟨hserved₁, hlayout, hsafe, hmany⟩ := hready
  obtain ⟨dst, m₂, frames, hclone, hlent, ⟨m₃, k, hc, hm₂⟩, hend⟩ :=
    Paging.clonePageDirectory_frames hlayout hsafe
  have hdst : dst ≠ 0 := by
    rintro rfl
    exact absurd hend.1 (not_lt.mpr hmany)
  have ht : StackTable { m with pmm := heap₁.pmm } kt := h.table.pmm heap₁.pmm
  have ht₂ : StackTable m₂ kt := hm₂ ▸ stackTable_cloned ht hc m₂.pmm
  obtain ⟨r, m', hstack, hr, -⟩ :=
    Kstack.allocKernelStack_spec m.dir ht₂ (show 1 ≤ 128 by decide) (show 128 < 256 by decide)
  obtain rfl : r = 0 := hr.resolve_right fun hne => hne.1 rfl
  have hnode := shell_node m heap p 128
  exact ⟨kt, _, _, _, h, fork_unstacked hnode hkmalloc hserved₁.ne_zero hclone hdst hstack,
    hserved₁.not_tracks (by decide) m'.pmm⟩

end

/-- **Fork and memory.** A fork that returns `-ENOMEM` undoes what it did just if the structure was refused
outright, or came from a slab that was there and the frames ran out before a user page was copied. -/
theorem fork_enomem_iff {kt fuel : Nat} {live : List Block} {s s' : System} (h : Consistent kt live s)
    (hrun : fork fuel s = .ok (-enomem, s') ∨ kernelFork fuel s = .ok (-enomem, s')) :
    Unchanged kt live s s' ↔ Undoes s := by
  rcases hrun with hrun | hrun
  · exact forkTask_unchanged_iff h hrun
  · exact forkTask_unchanged_iff h hrun

theorem fork_enomem_iff_shell :
    ∃ kt live s s', Consistent kt live s ∧ fork 0 s = .ok (-enomem, s') ∧ ¬Undoes s := by
  obtain ⟨m, -, hs⟩ := Paging.bootMachine_started
  obtain ⟨p, heap, hserved, hpmm⟩ := shell_served hs
  obtain ⟨kt, live, s, s', h, hrun, hkept⟩ := shell_fork_fails hs hserved hpmm
  exact ⟨kt, live, s, s', h, hrun, fun hundoes => hkept ((fork_enomem_iff h (.inl hrun)).mpr hundoes).blocks⟩

/-- The structure of task 128 stays in use. -/
theorem fork_not_undone : ∃ kt live s s', Consistent kt live s ∧ fork 0 s = .ok (-enomem, s') ∧
    ¬Unchanged kt live s s' := by
  obtain ⟨m, -, hs⟩ := Paging.bootMachine_started
  obtain ⟨p, heap, hserved, hpmm⟩ := shell_served hs
  obtain ⟨kt, live, s, s', h, hrun, hkept⟩ := shell_fork_fails hs hserved hpmm
  exact ⟨kt, live, s, s', h, hrun, fun hsame => hkept hsame.blocks⟩

end JexOs.Fork
