import JexOs.Lib.Chain
import JexOs.Lib.Tiling
import JexOs.Malloc

/-!
# The heap of a user program: the blocks tile it

The headers in memory describe blocks that tile the heap from its base to the break, and every part of `malloc`
and `free` keeps that.
-/

namespace JexOs.Malloc

open ByteMem Linked Tiling List

section Headers

variable {mem mem' : Mem} {b : Block}

structure Holds (mem : Mem) (b : Block) : Prop where
  size : sizeOf mem b.addr = b.size
  free : freeOf mem b.addr = if b.free then 1 else 0

def SameHeader (mem mem' : Mem) (addr : Nat) : Prop :=
  ∀ a, addr ≤ a → a < addr + headerSize → mem' a = mem a

theorem SameHeader.sizeOf {addr : Nat} (h : SameHeader mem mem' addr) : sizeOf mem' addr = sizeOf mem addr :=
  load32_congr fun a hlow hhigh => h a hlow (by unfold headerSize; omega)

theorem SameHeader.nextOf {addr : Nat} (h : SameHeader mem mem' addr) : nextOf mem' addr = nextOf mem addr :=
  load32_congr fun a hlow hhigh => h a (by omega) (by unfold headerSize; omega)

theorem SameHeader.freeOf {addr : Nat} (h : SameHeader mem mem' addr) : freeOf mem' addr = freeOf mem addr :=
  load32_congr fun a hlow hhigh => h a (by omega) (by unfold headerSize; omega)

theorem Holds.congr (h : Holds mem b) (hsame : SameHeader mem mem' b.addr) : Holds mem' b where
  size := hsame.sizeOf.trans h.size
  free := hsame.freeOf.trans h.free

theorem Holds.free_ne_zero (h : Holds mem b) : freeOf mem b.addr ≠ 0 ↔ b.free = true := by
  rw [h.free]
  cases b.free <;> decide

theorem store32_apart {a p v : Nat} (h : a < p ∨ p + 4 ≤ a) : store32 mem p v a = mem a := by
  rcases h with h | h
  · exact blit_of_lt h
  · exact blit_of_ge h

end Headers

section Layout

variable {base : Nat} {s : State} {blocks before after : List Block} {b c x y : Block}

structure Layout (base : Nat) (s : State) (blocks : List Block) : Prop where
  tiles : Tiles headerSize base blocks s.brk
  chain : Chain (nextOf s.mem) 0 s.heapList (blocks.map Block.addr)
  holds : ∀ b ∈ blocks, Holds s.mem b

structure Sound (base : Nat) (s : State) (blocks : List Block) : Prop extends
    Layout base s blocks where
  coalesced : Coalesced blocks
  sizes : ∀ b ∈ blocks, b.size % 4 = 0
  aligned : base % 4 = 0
  base_pos : 0 < base
  brk_lt : s.brk < addresses

theorem Layout.congr {mem' : Mem} (h : Layout base s blocks)
    (hsame : ∀ b ∈ blocks, SameHeader s.mem mem' b.addr) :
    Layout base { s with mem := mem' } blocks where
  tiles := h.tiles
  chain := h.chain.congr fun addr haddr => by
    obtain ⟨b, hb, rfl⟩ := mem_map.mp haddr
    exact (hsame b hb).nextOf
  holds := fun b hb => (h.holds b hb).congr (hsame b hb)

theorem Layout.ne_zero (h : Layout base s blocks) (hb : b ∈ blocks) : b.addr ≠ 0 :=
  h.chain.ne_stop _ (mem_map_of_mem hb)

section

variable (h : Layout base s (before ++ b :: after))

include h

theorem Layout.next_eq : nextOf s.mem b.addr = (after.map Block.addr).headD 0 := by
  have hchain := h.chain
  rw [map_append, map_cons] at hchain
  exact hchain.suffix.head_eq

theorem Layout.sameHeader {mem' : Mem}
    (hmem : ∀ a, a < b.addr ∨ b.addr + headerSize + b.size ≤ a → mem' a = s.mem a) :
    ∀ x ∈ before ++ after, SameHeader s.mem mem' x.addr := by
  obtain ⟨hbefore, hafter⟩ := h.tiles.around
  intro x hx a hlow hhigh
  refine hmem a ?_
  rcases mem_append.mp hx with hx | hx
  · have hend := hbefore x hx
    omega
  · have hend := hafter x hx
    omega

theorem Layout.samePayload {mem' : Mem}
    (hmem : ∀ a, a < b.addr ∨ b.addr + headerSize + b.size ≤ a → mem' a = s.mem a) :
    ∀ x ∈ before ++ after, ∀ a, x.Contains headerSize a → mem' a = s.mem a := by
  obtain ⟨hbefore, hafter⟩ := h.tiles.around
  rintro x hx a ⟨hlow, hhigh⟩
  refine hmem a ?_
  rcases mem_append.mp hx with hx | hx
  · have hend := hbefore x hx
    omega
  · have hend := hafter x hx
    omega

theorem Layout.replace {mem' : Mem} (haddr : c.addr = b.addr) (hsize : c.size = b.size)
    (hsame : ∀ x ∈ before ++ after, SameHeader s.mem mem' x.addr)
    (hnext : nextOf mem' b.addr = nextOf s.mem b.addr) (hholds : Holds mem' c) :
    Layout base { s with mem := mem' } (before ++ c :: after) where
  tiles := h.tiles.relabel haddr hsize
  chain := by
    have hmap : (before ++ c :: after).map Block.addr = (before ++ b :: after).map Block.addr := by
      rw [map_append, map_append, map_cons, map_cons, haddr]
    rw [hmap]
    refine h.chain.congr fun addr hmem => ?_
    obtain ⟨x, hx, rfl⟩ := mem_map.mp hmem
    rcases mem_append.mp hx with hx | hx
    · exact (hsame x (mem_append_left _ hx)).nextOf
    · rcases mem_cons.mp hx with rfl | hx
      · exact hnext
      · exact (hsame x (mem_append_right _ hx)).nextOf
  holds := fun x hx => by
    rcases mem_append.mp hx with hmem | hmem
    · exact (h.holds x (mem_append_left _ hmem)).congr (hsame x (mem_append_left _ hmem))
    · rcases mem_cons.mp hmem with rfl | hmem
      · exact hholds
      · exact (h.holds x (mem_append_right _ (mem_cons_of_mem _ hmem))).congr
          (hsame x (mem_append_right _ hmem))

theorem Layout.setFree {v : Nat} (flag : Bool) (hv : v = if flag then 1 else 0) :
    Layout base { s with mem := store32 s.mem (b.addr + 8) v }
      (before ++ { b with free := flag } :: after) := by
  have hb := h.holds b mem_append_cons_self
  have hframe : ∀ a, a < b.addr + 8 ∨ b.addr + 12 ≤ a → store32 s.mem (b.addr + 8) v a = s.mem a :=
    fun a ha => store32_apart (by omega)
  refine h.replace rfl rfl ?_ ?_ ⟨?_, ?_⟩
  · refine h.sameHeader fun a ha => hframe a ?_
    unfold headerSize at ha
    omega
  · exact load32_store32_of_disjoint (by omega)
  · refine Eq.trans (load32_store32_of_disjoint (.inr ?_)) hb.size
    exact Nat.add_le_add_left (by decide) b.addr
  · refine (load32_store32 ?_).trans hv
    rw [hv]
    split <;> decide

omit h in
theorem absorb_apart {mem : Mem} {p q a : Nat} (h : a < p ∨ p + 8 ≤ a) : absorb mem p q a = mem a := by
  unfold absorb
  rw [store32_apart (by omega), store32_apart (by omega)]

omit h in
theorem Layout.absorbed (h : Layout base s (before ++ x :: y :: after)) (hbrk : s.brk < addresses) :
    Layout base { s with mem := absorb s.mem x.addr y.addr }
      (before ++ { x with size := x.size + y.size + headerSize } :: after) := by
  have hx := h.holds x mem_append_cons_self
  have hy := h.holds y (mem_append_right _ (mem_cons_of_mem _ mem_cons_self))
  obtain ⟨hbefore, hbehind⟩ := h.tiles.around
  have hxy := hbehind y mem_cons_self
  have hend := (h.tiles.bounds (mem_append_right _ (mem_cons_of_mem _ mem_cons_self))).2
  have hsizeLt : x.size + (y.size + headerSize) < addresses := by
    omega
  have hnextY : nextOf (store32 s.mem x.addr ((x.size + (y.size + headerSize)) % addresses)) y.addr =
      nextOf s.mem y.addr := load32_store32_of_disjoint (by unfold headerSize at hxy; omega)
  have hsize : sizeOf (absorb s.mem x.addr y.addr) x.addr = x.size + y.size + headerSize := by
    unfold absorb
    rw [hx.size, hy.size, Nat.add_assoc]
    refine (load32_store32_of_disjoint (by omega)).trans ?_
    refine (load32_store32 ?_).trans (Nat.mod_eq_of_lt hsizeLt)
    exact Nat.mod_lt _ (by decide)
  have hfree : freeOf (absorb s.mem x.addr y.addr) x.addr = freeOf s.mem x.addr :=
    load32_congr fun a hlow hhigh => absorb_apart (by omega)
  have hnext : nextOf (absorb s.mem x.addr y.addr) x.addr = nextOf s.mem y.addr := by
    unfold absorb
    dsimp only
    rw [hx.size, hy.size, hnextY]
    exact load32_store32 (load32_lt _ _)
  have hsame : ∀ z ∈ before ++ after,
      SameHeader s.mem (absorb s.mem x.addr y.addr) z.addr := by
    intro z hz
    refine h.sameHeader (fun a ha => absorb_apart (by unfold headerSize at ha; omega)) z ?_
    rcases mem_append.mp hz with hz | hz
    · exact mem_append_left _ hz
    · exact mem_append_right _ (mem_cons_of_mem _ hz)
  refine ⟨h.tiles.merge rfl rfl, ?_, fun z hz => ?_⟩
  · have hchain := h.chain
    rw [map_append, map_cons, map_cons] at hchain
    rw [map_append, map_cons]
    refine hchain.unlink hnext fun addr haddr => ?_
    rw [← map_append] at haddr
    obtain ⟨z, hz, rfl⟩ := mem_map.mp haddr
    exact (hsame z hz).nextOf
  · rcases mem_append.mp hz with hmem | hmem
    · exact (h.holds z (mem_append_left _ hmem)).congr (hsame z (mem_append_left _ hmem))
    · rcases mem_cons.mp hmem with rfl | hmem
      · exact ⟨hsize, hfree.trans hx.free⟩
      · exact (h.holds z (mem_append_right _
          (mem_cons_of_mem _ (mem_cons_of_mem _ hmem)))).congr
            (hsame z (mem_append_right _ hmem))

omit h in
theorem splitBlock_eq {mem : Mem} {n : Nat} (hb : Holds mem b) (hn : n + headerSize + 8 ≤ b.size) :
    splitBlock mem b.addr n =
      store32 (store32 (store32 (store32 (store32 mem (b.addr + 12 + n) (b.size - n - 12))
        (b.addr + 12 + n + 8) 1) (b.addr + 12 + n + 4) (nextOf mem b.addr)) b.addr n)
          (b.addr + 4) (b.addr + 12 + n) := by
  have hsplits : sizeOf mem b.addr ≥ (n + headerSize + 8) % addresses := by
    rw [hb.size]
    exact (Nat.mod_le _ _).trans hn
  have hnext : nextOf (store32 (store32 mem (b.addr + 12 + n) (b.size - n - 12))
      (b.addr + 12 + n + 8) 1) b.addr = nextOf mem b.addr := by
    refine (load32_store32_of_disjoint (by omega)).trans ?_
    exact load32_store32_of_disjoint (by omega)
  unfold splitBlock
  rw [if_pos hsplits, hb.size, ← hnext]
  rfl

theorem Layout.divided {n : Nat} (hbrk : s.brk < addresses) (hn : n + headerSize + 8 ≤ b.size) :
    (∀ a, a < b.addr ∨ b.addr + headerSize + b.size ≤ a → splitBlock s.mem b.addr n a = s.mem a) ∧
    Layout base { s with mem := splitBlock s.mem b.addr n }
      (before ++ { b with size := n } ::
        { addr := b.addr + headerSize + n
          size := b.size - n - headerSize
          free := true } :: after) := by
  have hb := h.holds b mem_append_cons_self
  have hend := (h.tiles.bounds mem_append_cons_self).2
  have hstores := splitBlock_eq hb hn
  unfold headerSize at hn hend
  unfold addresses at hbrk
  have hframe : ∀ a, a < b.addr ∨ b.addr + headerSize + b.size ≤ a →
      splitBlock s.mem b.addr n a = s.mem a := by
    intro a ha
    unfold headerSize at ha
    rw [hstores, store32_apart (by omega), store32_apart (by omega), store32_apart (by omega),
      store32_apart (by omega), store32_apart (by omega)]
  have hsize : sizeOf (splitBlock s.mem b.addr n) b.addr = n := by
    rw [hstores]
    refine (load32_store32_of_disjoint (by omega)).trans ?_
    exact load32_store32 (by omega)
  have hnext : nextOf (splitBlock s.mem b.addr n) b.addr = b.addr + headerSize + n := by
    rw [hstores]
    exact load32_store32 (by omega)
  have hfree : freeOf (splitBlock s.mem b.addr n) b.addr = freeOf s.mem b.addr := by
    refine load32_congr fun a hlow hhigh => ?_
    rw [hstores, store32_apart (by omega), store32_apart (by omega), store32_apart (by omega),
      store32_apart (by omega), store32_apart (by omega)]
  have hnewSize : sizeOf (splitBlock s.mem b.addr n) (b.addr + headerSize + n) =
      b.size - n - headerSize := by
    rw [hstores]
    unfold headerSize
    refine (load32_store32_of_disjoint (by omega)).trans ?_
    refine (load32_store32_of_disjoint (by omega)).trans ?_
    refine (load32_store32_of_disjoint (by omega)).trans ?_
    refine (load32_store32_of_disjoint (by omega)).trans ?_
    exact load32_store32 (by omega)
  have hnewFree : freeOf (splitBlock s.mem b.addr n) (b.addr + headerSize + n) = 1 := by
    rw [hstores]
    unfold headerSize
    refine (load32_store32_of_disjoint (by omega)).trans ?_
    refine (load32_store32_of_disjoint (by omega)).trans ?_
    refine (load32_store32_of_disjoint (by omega)).trans ?_
    exact load32_store32 (by decide)
  have hnewNext : nextOf (splitBlock s.mem b.addr n) (b.addr + headerSize + n) =
      nextOf s.mem b.addr := by
    rw [hstores]
    unfold headerSize
    refine (load32_store32_of_disjoint (by omega)).trans ?_
    refine (load32_store32_of_disjoint (by omega)).trans ?_
    exact load32_store32 (load32_lt _ _)
  have hsame := h.sameHeader hframe
  have hroom : n + headerSize ≤ b.size := by
    unfold headerSize
    omega
  refine ⟨hframe, h.tiles.split hroom ⟨rfl, rfl⟩ ⟨rfl, rfl⟩, ?_, fun z hz => ?_⟩
  · have hchain := h.chain
    rw [map_append, map_cons] at hchain
    rw [map_append, map_cons, map_cons]
    refine hchain.insert ?_ hnext hnewNext fun addr haddr => ?_
    · show b.addr + 12 + n ≠ 0
      omega
    · rw [← map_append] at haddr
      obtain ⟨z, hz, rfl⟩ := mem_map.mp haddr
      exact (hsame z hz).nextOf
  · rcases mem_append.mp hz with hmem | hmem
    · exact (h.holds z (mem_append_left _ hmem)).congr (hsame z (mem_append_left _ hmem))
    · rcases mem_cons.mp hmem with rfl | hmem
      · exact ⟨hsize, hfree.trans hb.free⟩
      · rcases mem_cons.mp hmem with rfl | hmem
        · exact ⟨hnewSize, hnewFree⟩
        · exact (h.holds z (mem_append_right _ (mem_cons_of_mem _ hmem))).congr
            (hsame z (mem_append_right _ hmem))

end

def lastAddr (blocks : List Block) : Nat := (blocks.map Block.addr).getLast?.getD 0

theorem sysSbrk_cases (increment : Nat) (granted : Bool) : sysSbrk s increment granted = (addresses - 1, s) ∨
      s.brk + increment < addresses ∧
      sysSbrk s increment granted = (s.brk, { s with brk := s.brk + increment }) := by
  unfold sysSbrk
  split
  case isFalse => exact .inl rfl
  case isTrue h =>
    rw [Bool.and_eq_true, decide_eq_true_iff] at h
    exact .inr ⟨h.2, rfl⟩

def newHeader (mem : Mem) (ptr size : Nat) : Mem :=
  store32 (store32 (store32 mem ptr size) (ptr + 8) 0) (ptr + 4) 0

theorem newHeader_apart {mem : Mem} {ptr size a : Nat} (h : a < ptr ∨ ptr + headerSize ≤ a) :
    newHeader mem ptr size a = mem a := by
  unfold headerSize at h
  unfold newHeader
  rw [store32_apart (by omega), store32_apart (by omega), store32_apart (by omega)]

theorem newHeader_holds {mem : Mem} {ptr size : Nat} (hsize : size < addresses) :
    Holds (newHeader mem ptr size)
        { addr := ptr
          size := size
          free := false } ∧
      nextOf (newHeader mem ptr size) ptr = 0 := by
  refine ⟨⟨?_, ?_⟩, load32_store32 (by decide)⟩
  · refine (load32_store32_of_disjoint (.inr le_rfl)).trans ?_
    refine (load32_store32_of_disjoint (.inr (Nat.add_le_add_left (by decide) ptr))).trans ?_
    exact load32_store32 hsize
  · refine (load32_store32_of_disjoint (.inl le_rfl)).trans ?_
    exact load32_store32 (by decide)

theorem Layout.grown {n : Nat} {l : Block} (h : Layout base s (before ++ [l]))
    (hlt : s.brk + headerSize + n < addresses) : Layout base
      { s with
        mem := store32 (newHeader s.mem s.brk n) (l.addr + 4) s.brk
        brk := s.brk + (n + headerSize) }
      (before ++ [l] ++
        [{ addr := s.brk
           size := n
           free := false }]) := by
  have hl := (h.tiles.bounds (mem_append_right before mem_cons_self)).2
  unfold headerSize at hl hlt
  unfold addresses at hlt
  obtain ⟨hholds, hnext⟩ := @newHeader_holds s.mem s.brk n (by unfold addresses; omega)
  have hkeeps : SameHeader (newHeader s.mem s.brk n)
      (store32 (newHeader s.mem s.brk n) (l.addr + 4) s.brk) s.brk :=
    fun a hlow hhigh => store32_apart (by omega)
  have hsame : ∀ z ∈ before,
      SameHeader s.mem (store32 (newHeader s.mem s.brk n) (l.addr + 4) s.brk) z.addr := by
    intro z hz a hlow hhigh
    have hend := h.tiles.around.1 z hz
    rw [store32_apart (by omega), newHeader_apart (by omega)]
  refine ⟨?_, ?_, fun z hz => ?_⟩
  · have htiles := h.tiles.grow
      (b :=
        { addr := s.brk
          size := n
          free := false }) rfl
    rwa [Nat.add_assoc, Nat.add_comm headerSize] at htiles
  · have hchain := h.chain
    rw [map_append, map_singleton] at hchain
    rw [map_append, map_append, map_singleton, map_singleton, append_assoc]
    refine hchain.insert ?_ (load32_store32 (by omega)) ?_ fun addr haddr => ?_
    · show s.brk ≠ 0
      omega
    · rw [hkeeps.nextOf, hnext]
      exact h.next_eq.symm
    · rw [append_nil] at haddr
      obtain ⟨z, hz, rfl⟩ := mem_map.mp haddr
      exact (hsame z hz).nextOf
  · rcases mem_append.mp hz with hz | hz
    · have hold := h.holds z hz
      rcases mem_append.mp hz with hz | hz
      · exact hold.congr (hsame z hz)
      · obtain rfl := mem_singleton.mp hz
        have hword : ∀ a, z.addr ≤ a → a < z.addr + 4 ∨ z.addr + 8 ≤ a → a < z.addr + 12 →
            store32 (newHeader s.mem s.brk n) (z.addr + 4) s.brk a = s.mem a := by
          intro a hlow hside hhigh
          rw [store32_apart (by omega), newHeader_apart (by omega)]
        refine ⟨(load32_congr fun a _ _ => hword a (by omega) (by omega) (by omega)).trans hold.size,
          (load32_congr fun a _ _ => hword a (by omega) (by omega) (by omega)).trans hold.free⟩
    · obtain rfl := mem_singleton.mp hz
      exact hholds.congr hkeeps

theorem Sound.extend {n : Nat} (h : Sound base s blocks) (granted : Bool) (hn : n % 4 = 0)
    (hlt : n + headerSize < addresses) : extend s (lastAddr blocks) n granted = (0, s) ∨
      ∃ s', extend s (lastAddr blocks) n granted = (s.brk + headerSize, s') ∧ Sound base s' (blocks ++
          [{ addr := s.brk
             size := n
             free := false }]) ∧
        ∀ x ∈ blocks, ∀ a, x.Contains headerSize a → s'.mem a = s.mem a := by
  unfold Malloc.extend
  rw [Nat.mod_eq_of_lt hlt]
  rcases sysSbrk_cases (s := s) (n + headerSize) granted with hsbrk | ⟨hbrk, hsbrk⟩
  · rw [hsbrk]
    exact .inl (if_pos rfl)
  · refine .inr ?_
    have hgranted : ¬ s.brk = addresses - 1 := by
      unfold headerSize at hbrk
      omega
    rw [hsbrk]
    dsimp only
    rw [if_neg hgranted]
    have hsizes : ∀ b ∈ blocks ++
        [{ addr := s.brk
           size := n
           free := false }], b.size % 4 = 0 :=
      forall_mem_append.mpr ⟨h.sizes, forall_mem_singleton.mpr hn⟩
    have hcoalesced := coalesced_used h.coalesced isChain_nil
      (c :=
        { addr := s.brk
          size := n
          free := false }) rfl
    rcases eq_nil_or_concat blocks with rfl | ⟨init, l, rfl⟩
    · rw [if_neg (by decide)]
      have hbase : base = s.brk := h.tiles
      obtain ⟨hholds, hnext⟩ :=
        @newHeader_holds s.mem s.brk n ((Nat.le_add_right n headerSize).trans_lt hlt)
      refine ⟨_, rfl, ⟨⟨⟨hbase.symm, ?_⟩, ?_, forall_mem_singleton.mpr hholds⟩, hcoalesced,
        hsizes, h.aligned, h.base_pos, hbrk⟩, fun x hx => absurd hx not_mem_nil⟩
      · show base + headerSize + n = s.brk + (n + headerSize)
        omega
      · exact ⟨rfl, hbase ▸ h.base_pos.ne', hnext⟩
    · rw [concat_eq_append] at *
      have hlast : lastAddr (init ++ [l]) = l.addr := by
        unfold lastAddr
        rw [map_append, map_singleton, getLast?_concat]
        rfl
      have hl := h.ne_zero (mem_append_right init mem_cons_self)
      rw [hlast, if_pos hl]
      refine ⟨_, rfl, ⟨h.toLayout.grown (by omega), hcoalesced, hsizes, h.aligned, h.base_pos, hbrk⟩, ?_⟩
      rintro x hx a ⟨hlow, hhigh⟩
      have hend := (h.tiles.bounds hx).2
      have hapart : a < l.addr + 4 ∨ l.addr + 4 + 4 ≤ a := by
        unfold headerSize at hlow hhigh
        rcases mem_append.mp hx with hx | hx
        · have hbefore := h.tiles.around.1 x hx
          unfold headerSize at hbefore
          omega
        · obtain rfl := mem_singleton.mp hx
          omega
      exact (store32_apart hapart).trans (newHeader_apart (by omega))

end Layout

end JexOs.Malloc
