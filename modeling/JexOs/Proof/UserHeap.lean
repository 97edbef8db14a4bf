import JexOs.UserHeap
import JexOs.Proof.MallocRun
import JexOs.Proof.SbrkUndo

/-!
# What a program gets from `malloc`

Rounding the size up and adding the header wrap for the last 15 sizes, and from `2 ^ 31 - 15` on what is asked of
the kernel is no positive increment.
-/

namespace JexOs.Sbrk

section Break

variable {s s' : State} {newBreak room : Nat} {frames : List Nat} {done : Bool} {increment : Int} {r : Nat}

theorem growHeap_programBreak (h : growHeap newBreak room frames s = some (done, s')) :
    s'.programBreak = s.programBreak := by
  induction room generalizing frames s with
  | zero =>
    unfold growHeap at h
    split at h
    · cases h
      rfl
    · cases h
      rfl
  | succ room ih =>
    unfold growHeap at h
    split at h
    · dsimp only at h
      split at h
      · cases h
        rfl
      · obtain ⟨⟨r, m⟩, -, h⟩ := Option.bind_eq_some_iff.mp h
        split at h
        · cases h
          rfl
        · have hrest := ih h
          exact hrest
    · cases h
      rfl

theorem start_setMachine (s : State) (m : Paging.Machine) :
    (start { s with machine := m }).programBreak = (start s).programBreak := by
  unfold start
  split
  · rfl
  · rfl

theorem sbrk_answer (hlow : heapStart ≤ (start s).programBreak) (hhigh : (start s).programBreak < failed)
    (h : sbrk s increment = some (r, s')) : (r = failed ∧ (start s').programBreak = (start s).programBreak) ∨
      r = (start s).programBreak ∧
      (0 ≤ increment ∧ (start s').programBreak = (start s).programBreak + increment.toNat ∧
            (start s).programBreak + increment.toNat < 2 ^ 32 ∨
          increment < 0 ∧ (start s').programBreak < (start s).programBreak) := by
  have hbase : heapStart = 0x1000000 := rfl
  have hfailed : failed = 0xFFFFFFFF := rfl
  have hset : start (start s) = start s := start_of_ne (by omega)
  by_cases hrejected : Rejected s increment
  · rw [sbrk_rejected hrejected] at h
    cases h
    exact .inl ⟨rfl, congrArg State.programBreak hset⟩
  · rcases Int.lt_trichotomy increment 0 with hneg | rfl | hpos
    · rw [sbrk_shrinks hrejected hneg] at h
      cases h
      refine .inr ⟨rfl, .inr ⟨hneg, ?_⟩⟩
      have hfits : (-increment).toNat ≤ ((start s).programBreak + 2 ^ 32 - heapStart) % 2 ^ 32 := by
        by_contra hbig
        exact hrejected (.inr ⟨hneg, by omega⟩)
      rw [start_of_ne]
      · show max _ _ < _
        omega
      · show max _ _ ≠ 0
        omega
    · cases h
      exact .inr ⟨rfl, .inl ⟨le_rfl, congrArg State.programBreak hset, by omega⟩⟩
    · have hfits : (start s).programBreak + increment.toNat < 2 ^ 32 := by
        by_contra hwraps
        refine hrejected (.inl ⟨hpos, ?_⟩)
        unfold target
        omega
      have htarget : target s increment = (start s).programBreak + increment.toNat := Nat.mod_eq_of_lt hfits
      rw [sbrk_grows hrejected hpos] at h
      cases hgrow : growHeap (target s increment) sbrkMaxPages [] (start s) with
      | none =>
        rw [hgrow] at h
        cases h
      | some result =>
        obtain ⟨done, s₁⟩ := result
        rw [hgrow] at h
        cases done with
        | false =>
          cases h
          have hsame := growHeap_programBreak hgrow
          refine .inl ⟨rfl, ?_⟩
          rw [start_of_ne (by omega), hsame]
        | true =>
          cases h
          refine .inr ⟨rfl, .inl ⟨hpos.le, ?_, hfits⟩⟩
          rw [start_of_ne (show target s increment ≠ 0 by omega)]
          exact htarget

end Break

end JexOs.Sbrk

namespace JexOs.UserHeap

open ByteMem Linked Tiling Malloc

def FreeBlock (p : Process) (size : Nat) : Prop :=
  ∃ addrs, Chain (nextOf p.mem) 0 p.heapList addrs ∧
    ∃ a ∈ addrs, freeOf p.mem a ≠ 0 ∧ size ≤ sizeOf p.mem a

/-- The kernel answers a request with its break, and the header of a block can be written there. -/
def Grants (k : Sbrk.State) (increment : Int) : Prop :=
  ∃ k', Sbrk.sbrk k increment = some ((Sbrk.start k).programBreak, k') ∧
    headerWritable k'.machine (Sbrk.start k).programBreak = true

def usable (s : Malloc.State) (ptr : Nat) : Nat := min (sizeOf s.mem (ptr - headerSize)) (s.brk - ptr)

/-- A block that `malloc(n)` returns has `n` usable bytes, and the break has not gone down. -/
def SizeLaw (p : Process) (n : Nat) : Prop :=
  ∀ ptr p', p.malloc n = some (ptr, p') → ptr ≠ 0 →
    n ≤ usable p'.heap ptr ∧ p.heap.brk ≤ p'.heap.brk

/-- What the kernel is asked for is no positive increment or a wrapped sum, and the request is served all the same.
-/
def Overreaches (p : Process) (n : Nat) : Prop :=
  2 ^ 31 - 15 ≤ n ∧
    (FreeBlock p (alignUp n) ∧ 2 ^ 32 - 7 ≤ n ∨
      ¬FreeBlock p (alignUp n) ∧ Grants p.kernel (increment (alignUp n)))

section Law

variable {base n size prev ptr fuel curr : Nat} {mem : Mem} {p p' : Process} {s : Malloc.State}
  {blocks : List Block} {b c : Block} {addrs : List Nat}

theorem alignUp_small (h : n ≤ 2 ^ 32 - 8) : n ≤ alignUp n ∧ alignUp n < n + 8 ∧ alignUp n % 8 = 0 := by
  unfold alignUp addresses
  omega

theorem alignUp_words (n : Nat) : alignUp n % 4 = 0 ∧ alignUp n < addresses := by
  unfold alignUp addresses
  omega

theorem search_none (hchain : Chain (nextOf mem) 0 curr addrs)
    (h : search mem size fuel prev curr = some (ptr, 0)) :
    ∀ a ∈ addrs, ¬(freeOf mem a ≠ 0 ∧ size ≤ sizeOf mem a) := by
  induction addrs generalizing fuel prev curr with
  | nil => exact fun a ha => absurd ha List.not_mem_nil
  | cons a addrs ih =>
    obtain ⟨rfl, hne, hrest⟩ := hchain
    cases fuel with
    | zero => cases h
    | succ fuel =>
      rw [search, if_neg hne] at h
      split at h
      · exact absurd (congrArg Prod.snd (Option.some.inj h)) hne
      · rename_i hunfit
        exact List.forall_mem_cons.mpr ⟨hunfit, ih hrest h⟩

theorem usable_eq (h : Malloc.Sound base s blocks)
    (hc : c ∈ blocks) : usable s (c.addr + headerSize) = c.size := by
  have hsize := (h.holds c hc).size
  have hend := (h.tiles.bounds hc).2
  unfold usable
  rw [Nat.add_sub_cancel, hsize]
  omega

theorem brk_words (h : Malloc.Sound base s blocks) : s.brk % 4 = 0 := by
  have hgen : ∀ {q : Nat} {blocks : List Block}, Tiles headerSize q blocks s.brk → q % 4 = 0 →
      (∀ b ∈ blocks, b.size % 4 = 0) → s.brk % 4 = 0 := by
    intro q blocks htiles hq hsizes
    induction blocks generalizing q with
    | nil => exact htiles ▸ hq
    | cons b rest ih =>
      obtain ⟨hb, hsizes⟩ := List.forall_mem_cons.mp hsizes
      refine ih htiles.2 ?_ hsizes
      unfold headerSize
      omega
  exact hgen h.tiles h.aligned h.sizes

structure Served (base : Nat) (p p' : Process) (blocks blocks' : List Block) (c : Block) : Prop where
  sound : Malloc.Sound base p'.heap blocks'
  mem : c ∈ blocks'
  used : c.free = false
  kept : Kept p.heap p'.heap blocks blocks'
  fresh : ∀ x ∈ blocks, x.free = false → x.addr ≠ c.addr

variable (h : Malloc.Sound base p.heap blocks)

include h

theorem malloc_cases (hbase : Sbrk.heapStart ≤ base) (hpos : 1 ≤ n) :
    (FreeBlock p (alignUp n) ∧ ∃ p' c blocks', p.malloc n = some (c.addr + headerSize, p') ∧
        p'.heap.brk = p.heap.brk ∧ alignUp n ≤ c.size ∧ Served base p p' blocks blocks' c) ∨
      ¬FreeBlock p (alignUp n) ∧ p.malloc n = p.extend (lastAddr blocks) (alignUp n) := by
  have hstart : Sbrk.heapStart = 0x1000000 := rfl
  have hmalloc : p.malloc n = _ := if_neg (Nat.ne_zero_of_lt hpos)
  rcases @search_spec _ _ _ 0 (alignUp n) _ h.chain h.holds h.length_lt with
    ⟨before, b, after, prev, rfl, hfree, hfits, hsearch⟩ | hsearch
  · left
    have hb : b ∈ before ++ b :: after := List.mem_append_cons_self
    have hne := h.ne_zero hb
    obtain ⟨hlow, hend⟩ := h.tiles.bounds hb
    have hbrk := h.brk_lt
    have hroom : alignUp n + headerSize + 8 < addresses := by omega
    replace hmalloc := hmalloc.trans (congrArg (Option.bind · _) hsearch)
    replace hmalloc : p.malloc n = if b.addr ≠ 0 then _ else _ := hmalloc
    rw [if_pos hne] at hmalloc
    obtain ⟨c, rest, haddr, hused, hsize, hsound, hkept⟩ := h.take hfree hfits (alignUp_words n).1 hroom
    rw [← haddr] at hmalloc
    refine ⟨⟨_, h.chain, b.addr, List.mem_map_of_mem hb, (h.holds b hb).free_ne_zero.mpr hfree, ?_⟩,
      _, c, _, hmalloc, rfl, hsize, haddr ▸ hsound, List.mem_append_cons_self, hused, haddr ▸ hkept, ?_⟩
    · exact (h.holds b hb).size.symm ▸ hfits
    · intro x hx hxused hxaddr
      obtain rfl := h.tiles.eq_of_addr (by decide) hx hb (hxaddr.trans haddr)
      rw [hxused] at hfree
      cases hfree
  · right
    refine ⟨?_, hmalloc.trans (congrArg (Option.bind · _) hsearch)⟩
    rintro ⟨addrs, hchain, a, ha, hfits⟩
    exact search_none hchain hsearch a ha hfits

omit h in
theorem free_brk {s' : Malloc.State} (h : Malloc.free s ptr = some s') : s'.brk = s.brk := by
  unfold Malloc.free at h
  split at h
  · cases h
    rfl
  · obtain ⟨curr, -, h⟩ := Option.bind_eq_some_iff.mp h
    cases h
    rfl

omit h in
theorem increment_small (h : size + headerSize < 2 ^ 31) :
    increment size = ((size + headerSize : Nat) : Int) := by
  unfold increment signed addresses
  rw [Nat.mod_eq_of_lt (by omega), if_pos h]

omit h in
theorem increment_large (h : 2 ^ 31 - 15 ≤ n) (hlt : n < 2 ^ 32) :
    increment (alignUp n) < 0 ∨ (increment (alignUp n)).toNat ≤ headerSize := by
  unfold increment signed alignUp addresses headerSize
  split
  · right
    omega
  · left
    omega

theorem brk_bounds (hbase : Sbrk.heapStart ≤ base) : Sbrk.heapStart ≤ (Sbrk.start p.kernel).programBreak ∧
      (Sbrk.start p.kernel).programBreak < Sbrk.failed := by
  have hwords : (Sbrk.start p.kernel).programBreak % 4 = 0 := brk_words h
  have hlt : (Sbrk.start p.kernel).programBreak < addresses := h.brk_lt
  have hle : base + blocks.length * headerSize ≤ (Sbrk.start p.kernel).programBreak := h.tiles.le
  have hfailed : Sbrk.failed = 0xFFFFFFFF := rfl
  unfold addresses at hlt
  constructor
  · omega
  · omega

def appended (s : Malloc.State) (prev size brk : Nat) : Malloc.State :=
  if prev ≠ 0 then
    { s with
      mem := store32 (newHeader s.mem s.brk size) (prev + 4) s.brk
      brk := brk }
  else
    { mem := newHeader s.mem s.brk size
      heapList := s.brk
      brk := brk }

omit h in
theorem appended_brk {brk : Nat} : (appended s prev size brk).brk = brk := by
  unfold appended
  split
  · rfl
  · rfl

theorem extend_cases (hbase : Sbrk.heapStart ≤ base) (hrun : p.extend prev size = some (ptr, p')) :
    (ptr = 0 ∧ p'.heap = p.heap) ∨ Grants p.kernel (increment size) ∧ ptr = p.heap.brk + headerSize ∧
        (0 ≤ increment size ∧ p.heap.brk + (increment size).toNat < 2 ^ 32 ∧
            p'.heap = appended p.heap prev size (p.heap.brk + (increment size).toNat) ∨
          increment size < 0 ∧ p'.heap.brk < p.heap.brk) := by
  obtain ⟨hlow, hhigh⟩ := brk_bounds h hbase
  obtain ⟨⟨r, k⟩, hsbrk, hrun⟩ := Option.bind_eq_some_iff.mp hrun
  dsimp only at hrun
  rcases Sbrk.sbrk_answer hlow hhigh hsbrk with ⟨rfl, hsame⟩ | ⟨rfl, hmoved⟩
  · cases hrun
    left
    unfold Process.heap
    rw [hsame]
    exact ⟨rfl, rfl⟩
  · rw [if_neg hhigh.ne] at hrun
    split at hrun
    · rename_i hwritable
      have hlinked : ptr = p.heap.brk + headerSize ∧
          p'.heap = appended p.heap prev size (Sbrk.start k).programBreak := by
        unfold appended
        split at hrun
        · rename_i hprev
          cases hrun
          rw [if_pos hprev]
          exact ⟨rfl, rfl⟩
        · rename_i hprev
          cases hrun
          rw [if_neg hprev]
          exact ⟨rfl, rfl⟩
      refine .inr ⟨⟨k, hsbrk, hwritable⟩, hlinked.1, ?_⟩
      rcases hmoved with ⟨hnonneg, hup, hfits⟩ | ⟨hneg, hdown⟩
      · refine .inl ⟨hnonneg, hfits, ?_⟩
        rw [hlinked.2, hup]
        rfl
      · refine .inr ⟨hneg, ?_⟩
        rw [hlinked.2, appended_brk]
        exact hdown
    · cases hrun

omit h in
theorem extend_eq (prev : Nat) (hsize : size + headerSize < addresses)
    (hfits : p.heap.brk + (size + headerSize) < addresses) : Malloc.extend p.heap prev size true =
      (p.heap.brk + headerSize, appended p.heap prev size (p.heap.brk + (size + headerSize))) := by
  have hne : ¬p.heap.brk = addresses - 1 := by
    unfold headerSize at hfits
    omega
  unfold Malloc.extend sysSbrk
  rw [Nat.mod_eq_of_lt hsize, Bool.true_and, if_pos (decide_eq_true hfits)]
  dsimp only
  rw [if_neg hne]
  unfold appended
  split
  · rfl
  · rfl

omit h in
theorem extend_granted (prev : Nat) (hhigh : (Sbrk.start p.kernel).programBreak < Sbrk.failed)
    (h : Grants p.kernel (increment size)) :
    ∃ p', p.extend prev size = some (p.heap.brk + headerSize, p') := by
  obtain ⟨k, hsbrk, hwritable⟩ := h
  unfold Process.extend
  rw [hsbrk, Option.bind_eq_bind, Option.bind_some]
  dsimp only
  rw [if_neg hhigh.ne, if_pos hwritable]
  split
  · exact ⟨_, rfl⟩
  · exact ⟨_, rfl⟩

variable (hbase : Sbrk.heapStart ≤ base)

include hbase

theorem extend_served (hn : n < 2 ^ 31 - 15) (hrun : p.extend (lastAddr blocks) (alignUp n) = some (ptr, p')) :
    (ptr = 0 ∧ p'.heap = p.heap) ∨ ∃ c blocks', ptr = c.addr + headerSize ∧
      p.heap.brk ≤ p'.heap.brk ∧ alignUp n ≤ c.size ∧ Served base p p' blocks blocks' c := by
  have hround := alignUp_small (show n ≤ 2 ^ 32 - 8 by omega)
  have hsmall : alignUp n + headerSize < 2 ^ 31 := by
    unfold headerSize
    omega
  have hincrement := increment_small hsmall
  rcases extend_cases h hbase hrun with hnull | ⟨-, rfl, ⟨-, hfits, hheap⟩ | ⟨hneg, -⟩⟩
  · exact .inl hnull
  · rw [hincrement, Int.toNat_natCast] at hfits hheap
    have hroom : alignUp n + headerSize < addresses := by
      unfold addresses
      omega
    have hextend := extend_eq (lastAddr blocks) hroom hfits
    rcases h.extend true (alignUp_words n).1 hroom with hrefused | ⟨s', hextend', hsound, hsame⟩
    · rw [hextend] at hrefused
      exact absurd (congrArg Prod.fst hrefused) (Nat.succ_ne_zero _)
    · rw [hextend] at hextend'
      obtain rfl := congrArg Prod.snd hextend'
      rw [← hheap] at hsound hsame
      refine .inr ⟨_, _, rfl, ?_, le_rfl, hsound, List.mem_append_right _ List.mem_cons_self, rfl,
        fun x hx _ => ⟨List.mem_append_left _ hx, hsame x hx⟩, fun x hx _ => ?_⟩
      · rw [hheap, appended_brk]
        exact Nat.le_add_right _ _
      · have hend := (h.tiles.bounds hx).2
        show x.addr ≠ p.heap.brk
        unfold headerSize at hend
        omega
  · omega

theorem malloc_served (hpos : 1 ≤ n) (hgood : ¬Overreaches p n) (hrun : p.malloc n = some (ptr, p')) :
    (ptr = 0 ∧ p'.heap = p.heap) ∨ ∃ c blocks', ptr = c.addr + headerSize ∧
      p.heap.brk ≤ p'.heap.brk ∧ n ≤ c.size ∧ Served base p p' blocks blocks' c := by
  rcases malloc_cases h hbase hpos with ⟨hfree, p₁, c, blocks', hmalloc, hbrk, hsize,
    hserved⟩ | ⟨hnone, hmalloc⟩
  · rw [hmalloc] at hrun
    cases hrun
    have hn : n ≤ 2 ^ 32 - 8 := by
      by_contra hlarge
      exact hgood ⟨by omega, .inl ⟨hfree, by omega⟩⟩
    exact .inr ⟨c, blocks', rfl, hbrk.ge, (alignUp_small hn).1.trans hsize, hserved⟩
  · rw [hmalloc] at hrun
    rcases lt_or_ge n (2 ^ 31 - 15) with hsmall | hlarge
    · rcases extend_served h hbase hsmall hrun with hnull | ⟨c, blocks', hptr, hbrk, hsize, hserved⟩
      · exact .inl hnull
      · have hround := alignUp_small (show n ≤ 2 ^ 32 - 8 by omega)
        exact .inr ⟨c, blocks', hptr, hbrk, hround.1.trans hsize, hserved⟩
    · rcases extend_cases h hbase hrun with hnull | ⟨hgrants, -⟩
      · exact .inl hnull
      · exact absurd ⟨hlarge, .inr ⟨hnone, hgrants⟩⟩ hgood

theorem sizeLaw_of_not_overreaches (hpos : 1 ≤ n) (hgood : ¬Overreaches p n) : SizeLaw p n := by
  intro ptr p' hrun hne
  rcases malloc_served h hbase hpos hgood hrun with ⟨hnull, -⟩ | ⟨c, blocks', rfl, hbrk, hsize, hserved⟩
  · exact absurd hnull hne
  · rw [usable_eq hserved.sound hserved.mem]
    exact ⟨hsize, hbrk⟩

theorem Overreaches.not_sizeLaw (hpos : 1 ≤ n) (hlt : n < 2 ^ 32) (hover : Overreaches p n) :
    ¬SizeLaw p n := by
  intro hlaw
  obtain ⟨hlarge, ⟨hfree, hwraps⟩ | ⟨hnone, hgrants⟩⟩ := hover
  · rcases malloc_cases h hbase hpos with ⟨-, p', c, blocks', hmalloc, -, -, hserved⟩ | ⟨hnone, -⟩
    · obtain ⟨hsize, -⟩ := hlaw _ p' hmalloc (Nat.succ_ne_zero _)
      rw [usable_eq hserved.sound hserved.mem] at hsize
      have hend := (hserved.sound.tiles.bounds hserved.mem).2
      have hbrk := hserved.sound.brk_lt
      unfold headerSize at hend
      unfold addresses at hbrk
      omega
    · exact hnone hfree
  · rcases malloc_cases h hbase hpos with ⟨hfree, -⟩ | ⟨-, hmalloc⟩
    · exact hnone hfree
    · obtain ⟨p', hextend⟩ := extend_granted (lastAddr blocks) (brk_bounds h hbase).2 hgrants
      obtain ⟨hsize, hbrk⟩ := hlaw _ p' (hmalloc.trans hextend) (Nat.succ_ne_zero _)
      rcases extend_cases h hbase hextend with ⟨hnull, -⟩ | ⟨-, -, ⟨hnonneg, -, hheap⟩ | ⟨-, hdown⟩⟩
      · exact absurd hnull (Nat.succ_ne_zero _)
      · -- the new break is not behind the header
        have hshort := increment_large hlarge hlt
        have hroom : p'.heap.brk = p.heap.brk + (increment (alignUp n)).toNat := by
          rw [hheap, appended_brk]
        unfold usable at hsize
        omega
      · omega

end Law

/-- A program asks for memory without overreaching, frees live pointers and writes to live blocks. -/
inductive Step : Process × List Live → Process × List Live → Prop
  | malloc {p p' : Process} {ptr : Nat} (live : List Live) (n : Nat) (hpos : 1 ≤ n)
      (hgood : ¬Overreaches p n) (hrun : p.malloc n = some (ptr, p')) :
      Step (p, live)
        (p', if ptr = 0 then live
          else
            { ptr := ptr
              size := n } :: live)
  | free {p p' : Process} {live : List Live} (x : Live) (hlive : x ∈ live)
      (hrun : p.free x.ptr = some p') : Step (p, live) (p', live.filter fun y => y.ptr != x.ptr)
  | write {p : Process} {live : List Live} (x : Live) (a : Nat) (v : UInt8) (hlive : x ∈ live)
      (hcontains : x.Contains p.mem a) :
      Step (p, live) ({ p with mem := Function.update p.mem a v }, live)
  | machine (p : Process) (live : List Live) (m : Paging.Machine) :
      Step (p, live) ({ p with kernel := { p.kernel with machine := m } }, live)

structure Fresh (p : Process) : Prop where
  empty : p.heapList = 0
  aligned : p.heap.brk % 4 = 0
  low : Sbrk.heapStart ≤ p.heap.brk
  high : p.heap.brk < addresses

section Runs

variable {base : Nat} {p p' : Process} {live live' : List Live} {blocks : List Block}

theorem malloc_good (h : Malloc.Good base { heap := p.heap, live := live } blocks)
    (hbase : Sbrk.heapStart ≤ base) {n ptr : Nat} (hpos : 1 ≤ n) (hgood : ¬Overreaches p n)
    (hrun : p.malloc n = some (ptr, p')) :
    ∃ blocks', Malloc.Good base
      { heap := p'.heap
        live :=
          if ptr = 0 then live
          else
            { ptr := ptr
              size := n } :: live } blocks' := by
  rcases malloc_served h.sound hbase hpos hgood hrun with
    ⟨rfl, hheap⟩ | ⟨c, blocks', rfl, -, hsize, hserved⟩
  · rw [if_pos rfl, hheap]
    exact ⟨blocks, h⟩
  · have hne : c.addr + headerSize ≠ 0 := Nat.succ_ne_zero _
    refine ⟨blocks', hserved.sound, ?_, List.Pairwise.cons (fun x hx hptr => ?_) h.distinct⟩
    · refine List.forall_mem_cons.mpr ⟨⟨c, hserved.mem, hserved.used, rfl, hsize⟩, fun x hx => ?_⟩
      obtain ⟨b, hb, hbused, hbptr, hbsize⟩ := h.live x hx
      exact ⟨b, (hserved.kept b hb hbused).1, hbused, hbptr, hbsize⟩
    · obtain ⟨b, hb, hbused, hbptr, -⟩ := h.live x hx
      exact hserved.fresh b hb hbused (Nat.add_right_cancel (hbptr.symm.trans hptr.symm))

theorem Step.good (hstep : Step (p, live) (p', live')) (hbase : Sbrk.heapStart ≤ base)
    (h : Malloc.Good base { heap := p.heap, live := live } blocks) :
    ∃ blocks', Malloc.Good base { heap := p'.heap, live := live' } blocks' := by
  cases hstep with
  | malloc _ n hpos hgood hrun => exact malloc_good h hbase hpos hgood hrun
  | free x hlive hrun =>
    have hallowed : Program.allowed { heap := p.heap, live := live } (.free x.ptr) = true :=
      List.any_eq_true.mpr ⟨x, hlive, beq_self_eq_true _⟩
    obtain ⟨q, blocks', hq, hgood, -⟩ := h.free hallowed
    obtain ⟨heap, hheap, hrun⟩ := Option.bind_eq_some_iff.mp hrun
    cases hrun
    dsimp only [Program.step] at hq
    rw [hheap] at hq
    cases hq
    have hbrk : heap.brk = (Sbrk.start p.kernel).programBreak := free_brk hheap
    refine ⟨blocks', ?_⟩
    unfold Process.heap
    rw [← hbrk]
    exact hgood
  | write x a v hlive hcontains =>
    have hallowed : Program.allowed { heap := p.heap, live := live } (.write a v) = true :=
      List.any_eq_true.mpr ⟨x, hlive, decide_eq_true hcontains⟩
    obtain ⟨q, blocks', hq, hgood⟩ := h.write hallowed
    cases hq
    exact ⟨blocks', hgood⟩
  | machine _ _ m =>
    have hheap : ({ p with kernel := { p.kernel with machine := m } } : Process).heap = p.heap := by
      unfold Process.heap
      rw [Sbrk.start_setMachine]
    rw [hheap]
    exact ⟨blocks, h⟩

theorem run_good {start finish : Process × List Live} (hrun : Relation.ReflTransGen Step start finish)
    (hfresh : Fresh start.1) (hnone : start.2 = []) : ∃ base blocks, Sbrk.heapStart ≤ base ∧
      Malloc.Good base { heap := finish.1.heap, live := finish.2 } blocks := by
  induction hrun with
  | refl =>
    refine ⟨start.1.heap.brk, [], hfresh.low, ⟨⟨⟨rfl, hfresh.empty, fun _ hb => absurd hb List.not_mem_nil⟩,
      List.isChain_nil, fun _ hb => absurd hb List.not_mem_nil, hfresh.aligned, ?_, hfresh.high⟩, ?_, ?_⟩⟩
    · have hlow := hfresh.low
      have hstart : 0 < Sbrk.heapStart := by decide
      omega
    · rw [hnone]
      exact fun _ hx => absurd hx List.not_mem_nil
    · rw [hnone]
      exact List.Pairwise.nil
  | tail _ hstep ih =>
    obtain ⟨base, blocks, hbase, h⟩ := ih
    obtain ⟨blocks', h'⟩ := hstep.good hbase h
    exact ⟨base, blocks', hbase, h'⟩

theorem run_sizeLaw_iff {start finish : Process × List Live}
    (hrun : Relation.ReflTransGen Step start finish) (hfresh : Fresh start.1) (hnone : start.2 = [])
    {n : Nat} (hpos : 1 ≤ n) (hlt : n < 2 ^ 32) : SizeLaw finish.1 n ↔ ¬Overreaches finish.1 n := by
  obtain ⟨base, blocks, hbase, h⟩ := run_good hrun hfresh hnone
  exact ⟨fun hlaw hover => hover.not_sizeLaw h.sound hbase hpos hlt hlaw,
    sizeLaw_of_not_overreaches h.sound hbase hpos⟩

end Runs

end JexOs.UserHeap
