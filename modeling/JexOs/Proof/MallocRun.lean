import JexOs.Proof.Malloc

/-!
# The heap of a user program: runs

Any run of a program that frees live pointers only and writes within live blocks keeps the layout of the heap.
-/

namespace JexOs.Malloc

open ByteMem Linked Tiling List Option

section Walks

variable {mem : Mem} {blocks before after : List Block} {b p : Block} {curr prev size fuel : Nat}

theorem search_spec (hchain : Chain (nextOf mem) 0 curr (blocks.map Block.addr))
    (hholds : ∀ b ∈ blocks, Holds mem b) (hfuel : blocks.length < fuel) :
    (∃ before b after prev', blocks = before ++ b :: after ∧ b.free = true ∧ size ≤ b.size ∧
        search mem size fuel prev curr = some (prev', b.addr)) ∨ search mem size fuel prev curr =
        some ((blocks.map Block.addr).getLast?.getD prev, 0) := by
  induction blocks generalizing curr prev fuel with
  | nil =>
    obtain ⟨fuel, rfl⟩ := Nat.exists_eq_succ_of_ne_zero (Nat.ne_zero_of_lt hfuel)
    right
    exact if_pos hchain
  | cons x rest ih =>
    obtain ⟨fuel, rfl⟩ := Nat.exists_eq_succ_of_ne_zero (Nat.ne_zero_of_lt hfuel)
    obtain ⟨rfl, hne, hrest⟩ := hchain
    obtain ⟨hx, hholds⟩ := forall_mem_cons.mp hholds
    unfold search
    rw [if_neg hne]
    by_cases hfits : freeOf mem x.addr ≠ 0 ∧ sizeOf mem x.addr ≥ size
    · rw [if_pos hfits]
      exact .inl ⟨[], x, rest, prev, rfl, hx.free_ne_zero.mp hfits.1, hx.size ▸ hfits.2, rfl⟩
    · rw [if_neg hfits]
      have hlength : rest.length < fuel := Nat.lt_of_succ_lt_succ hfuel
      rcases @ih _ x.addr _ hrest hholds hlength with
        ⟨before, b, after, prev', rfl, hfree, hsize, hsearch⟩ | hsearch
      · exact .inl ⟨x :: before, b, after, prev', rfl, hfree, hsize, hsearch⟩
      · refine .inr (hsearch.trans ?_)
        rw [map_cons, getLast?_cons]
        rfl

theorem findPrev_of_first {block : Nat}
    (hchain : Chain (nextOf mem) 0 curr (blocks.map Block.addr)) (hblock : block ≠ 0)
    (hnot : ∀ x ∈ blocks.tail, x.addr ≠ block) (hfuel : blocks.length < fuel) :
    findPrev mem block fuel curr = some 0 := by
  induction blocks generalizing curr fuel with
  | nil =>
    obtain ⟨fuel, rfl⟩ := Nat.exists_eq_succ_of_ne_zero (Nat.ne_zero_of_lt hfuel)
    obtain rfl : curr = 0 := hchain
    exact if_neg fun h => h.1 rfl
  | cons x rest ih =>
    obtain ⟨fuel, rfl⟩ := Nat.exists_eq_succ_of_ne_zero (Nat.ne_zero_of_lt hfuel)
    obtain ⟨rfl, hne, hrest⟩ := hchain
    have hnext : nextOf mem x.addr ≠ block := by
      rw [hrest.head_eq]
      cases rest with
      | nil => exact hblock.symm
      | cons y rest => exact hnot y mem_cons_self
    unfold findPrev
    rw [if_pos ⟨hne, hnext⟩]
    exact ih hrest (fun y hy => hnot y (mem_of_mem_tail hy)) (Nat.lt_of_succ_lt_succ hfuel)

theorem findPrev_of_before (hchain : Chain (nextOf mem) 0 curr ((before ++ p :: b :: after).map Block.addr))
    (hnot : ∀ x ∈ before ++ [p], x.addr ≠ b.addr) (hfuel : before.length < fuel) :
    findPrev mem b.addr fuel curr = some p.addr := by
  induction before generalizing curr fuel with
  | nil =>
    obtain ⟨fuel, rfl⟩ := Nat.exists_eq_succ_of_ne_zero (Nat.ne_zero_of_lt hfuel)
    obtain ⟨rfl, -, hlink, -⟩ := hchain
    exact if_neg fun h => h.2 hlink
  | cons x rest ih =>
    obtain ⟨fuel, rfl⟩ := Nat.exists_eq_succ_of_ne_zero (Nat.ne_zero_of_lt hfuel)
    obtain ⟨rfl, hne, hrest⟩ := hchain
    have hnext : nextOf mem x.addr ≠ b.addr := by
      rw [hrest.head_eq]
      cases rest with
      | nil => exact hnot p (mem_cons_of_mem _ mem_cons_self)
      | cons y rest => exact hnot y (mem_cons_of_mem _ mem_cons_self)
    unfold findPrev
    rw [if_pos ⟨hne, hnext⟩]
    exact ih hrest (fun y hy => hnot y (mem_cons_of_mem _ hy)) (Nat.lt_of_succ_lt_succ hfuel)

end Walks

section Operations

variable {base : Nat} {s : State} {blocks before after : List Block} {b : Block}

theorem Sound.length_lt (h : Sound base s blocks) : blocks.length < addresses := by
  have hle := h.tiles.le
  have hbrk := h.brk_lt
  unfold headerSize at hle
  omega

theorem alignUp_spec {n : Nat} (h : n < 2 ^ 31 - 32) :
    n ≤ alignUp n ∧ alignUp n % 4 = 0 ∧ alignUp n + headerSize + 8 < addresses := by
  unfold alignUp addresses headerSize
  omega

def Kept (s s' : State) (blocks blocks' : List Block) : Prop :=
  ∀ x ∈ blocks, x.free = false →
    x ∈ blocks' ∧ ∀ a, x.Contains headerSize a → s'.mem a = s.mem a

theorem Layout.kept {mem' : Mem} {blocks' : List Block} (h : Layout base s (before ++ b :: after))
    (hfree : b.free = true) (hmem : ∀ a, a < b.addr ∨ b.addr + headerSize + b.size ≤ a → mem' a = s.mem a)
    (hsub : ∀ x ∈ before ++ after, x ∈ blocks') :
    Kept s { s with mem := mem' } (before ++ b :: after) blocks' := by
  intro x hx hused
  have hother : x ∈ before ++ after := by
    rcases mem_append.mp hx with hx | hx
    · exact mem_append_left _ hx
    · rcases mem_cons.mp hx with rfl | hx
      · rw [hused] at hfree
        exact nomatch hfree
      · exact mem_append_right _ hx
  exact ⟨hsub x hother, h.samePayload hmem x hother⟩

theorem Sound.take {n : Nat} (h : Sound base s (before ++ b :: after)) (hfree : b.free = true)
    (hn : n ≤ b.size) (hwords : n % 4 = 0) (hlt : n + headerSize + 8 < addresses) :
    ∃ c rest, c.addr = b.addr ∧ c.free = false ∧ n ≤ c.size ∧
      Sound base { s with mem := splitBlock (store32 s.mem (b.addr + 8) 0) b.addr n }
        (before ++ c :: rest) ∧
      Kept s { s with mem := splitBlock (store32 s.mem (b.addr + 8) 0) b.addr n }
        (before ++ b :: after) (before ++ c :: rest) := by
  have hused := h.toLayout.setFree (v := 0) false rfl
  have hsizes := h.sizes
  have hholds := hused.holds { b with free := false } mem_append_cons_self
  have hflag : ∀ a, a < b.addr ∨ b.addr + headerSize + b.size ≤ a →
      store32 s.mem (b.addr + 8) 0 a = s.mem a :=
    fun a ha => store32_apart (by unfold headerSize at ha; omega)
  obtain ⟨hbefore, hafter, haround⟩ := h.coalesced.around
  rw [forall_mem_append, forall_mem_cons] at hsizes
  by_cases hsplit : n + headerSize + 8 ≤ b.size
  · obtain ⟨hframe, hlayout⟩ := hused.divided h.brk_lt hsplit
    refine
      ⟨{ b with
          size := n
          free := false },
        { addr := b.addr + headerSize + n
          size := b.size - n - headerSize
          free := true } :: after, rfl, rfl, Nat.le_refl n,
            ⟨hlayout, ?_, ?_, h.aligned, h.base_pos, h.brk_lt⟩, ?_⟩
    · refine coalesced_used hbefore ?_ rfl
      exact @coalesced_between _ [] _ isChain_nil hafter (fun _ hx => nomatch hx) (haround hfree).2
    · refine forall_mem_append.mpr ⟨hsizes.1, forall_mem_cons.mpr ⟨hwords, ?_⟩⟩
      refine forall_mem_cons.mpr ⟨?_, hsizes.2.2⟩
      show (b.size - n - 12) % 4 = 0
      omega
    · refine h.toLayout.kept hfree (fun a ha => (hframe a ha).trans (hflag a ha)) fun x hx => ?_
      rcases mem_append.mp hx with hx | hx
      · exact mem_append_left _ hx
      · exact mem_append_right _ (mem_cons_of_mem _ (mem_cons_of_mem _ hx))
  · have hwhole : splitBlock (store32 s.mem (b.addr + 8) 0) b.addr n =
        store32 s.mem (b.addr + 8) 0 := by
      unfold splitBlock
      rw [Nat.mod_eq_of_lt hlt]
      refine if_neg fun hge => hsplit ?_
      exact hholds.size ▸ hge
    rw [hwhole]
    refine ⟨{ b with free := false }, after, rfl, rfl, hn,
      ⟨hused, ?_, ?_, h.aligned, h.base_pos, h.brk_lt⟩, ?_⟩
    · exact coalesced_used hbefore hafter rfl
    · exact forall_mem_append.mpr ⟨hsizes.1, forall_mem_cons.mpr hsizes.2⟩
    · refine h.toLayout.kept hfree hflag fun x hx => ?_
      rcases mem_append.mp hx with hx | hx
      · exact mem_append_left _ hx
      · exact mem_append_right _ (mem_cons_of_mem _ hx)

theorem Sound.malloc {n : Nat} (h : Sound base s blocks) (granted : Bool) (hpos : 1 ≤ n)
    (hn : n < 2 ^ 31 - 32) :
    malloc s n granted = some (0, s) ∨ ∃ c s' blocks', malloc s n granted = some (c.addr + headerSize, s') ∧
        Sound base s' blocks' ∧ c ∈ blocks' ∧ c.free = false ∧ n ≤ c.size ∧
        Kept s s' blocks blocks' ∧ ∀ x ∈ blocks, x.free = false → x.addr ≠ c.addr := by
  obtain ⟨hle, hwords, hlt⟩ := alignUp_spec hn
  unfold Malloc.malloc
  rw [if_neg (Nat.ne_zero_of_lt hpos)]
  dsimp only
  rcases @search_spec _ _ _ 0 (alignUp n) _ h.chain h.holds h.length_lt with
    ⟨before, b, after, prev, rfl, hfree, hfits, hsearch⟩ | hsearch
  · right
    rw [hsearch]
    have hb : b.addr ≠ 0 := h.ne_zero mem_append_cons_self
    obtain ⟨c, rest, haddr, hused, hsize, hsound, hkept⟩ := h.take hfree hfits hwords hlt
    refine ⟨c, _, _, ?_, hsound, mem_append_cons_self, hused, hle.trans hsize, hkept, ?_⟩
    · show (if b.addr ≠ 0 then _ else _) = _
      rw [if_pos hb, haddr]
    · intro x hx hxused hxaddr
      obtain rfl := h.tiles.eq_of_addr (by decide) hx mem_append_cons_self (hxaddr.trans haddr)
      rw [hxused] at hfree
      exact nomatch hfree
  · rw [hsearch]
    rcases h.extend granted hwords (by omega) with hrefused | ⟨s', hextend, hsound, hsame⟩
    · left
      show some (Malloc.extend s (lastAddr blocks) (alignUp n) granted) = _
      rw [hrefused]
    · right
      refine ⟨_, s', _, ?_, hsound, mem_append_right _ mem_cons_self, rfl, hle,
        fun x hx _ => ⟨mem_append_left _ hx, hsame x hx⟩, ?_⟩
      · show some (Malloc.extend s (lastAddr blocks) (alignUp n) granted) = _
        rw [hextend]
      · intro x hx _
        have hend := (h.tiles.bounds hx).2
        show x.addr ≠ s.brk
        unfold headerSize at hend
        omega

theorem Layout.payload_apart {x y : Block} {a : Nat} (h : Layout base s blocks) (hx : x ∈ blocks)
    (hy : y ∈ blocks) (ha : x.Contains headerSize a) : a < y.addr ∨ y.addr + headerSize ≤ a := by
  obtain ⟨before, after, rfl⟩ := append_of_mem hy
  obtain ⟨hbefore, hafter⟩ := h.tiles.around
  obtain ⟨hlow, hhigh⟩ := ha
  rcases mem_append.mp hx with hx | hx
  · have hend := hbefore x hx
    omega
  · rcases mem_cons.mp hx with rfl | hx
    · exact .inr hlow
    · have hend := hafter x hx
      omega

theorem coalesceNext_apart {mem : Mem} {block a : Nat} (h : a < block ∨ block + headerSize ≤ a) :
    coalesceNext mem block a = mem a := by
  unfold headerSize at h
  unfold coalesceNext
  split
  · exact absorb_apart (by omega)
  · rfl

theorem coalescePrev_apart {mem : Mem} {curr block a : Nat}
    (h : a < curr ∨ curr + headerSize ≤ a) : coalescePrev mem curr block a = mem a := by
  unfold headerSize at h
  unfold coalescePrev
  split
  · exact absorb_apart (by omega)
  · rfl

theorem Layout.coalesceNext (h : Layout base s (before ++ b :: after)) (hbrk : s.brk < addresses)
    (hfree : b.free = true) (hcoalesced : Coalesced after) (hsize : b.size % 4 = 0)
    (hsizes : ∀ x ∈ after, x.size % 4 = 0) :
    ∃ c rest, Layout base { s with mem := coalesceNext s.mem b.addr } (before ++ c :: rest) ∧
      c.addr = b.addr ∧ c.free = true ∧ c.size % 4 = 0 ∧ rest <:+ after ∧
      (∀ y ∈ rest.head?, y.free = false) ∧ ∀ x ∈ after, x.free = false → x ∈ rest := by
  have hnext := h.next_eq
  unfold Malloc.coalesceNext
  cases after with
  | nil =>
    have hnone : nextOf s.mem b.addr = 0 := hnext
    rw [hnone]
    exact ⟨b, [], h, rfl, hfree, hsize, suffix_rfl,
      fun _ hy => absurd hy (not_mem_none _), fun _ hx _ => hx⟩
  | cons y rest =>
    have hy : nextOf s.mem b.addr = y.addr := hnext
    have hmem : y ∈ before ++ b :: y :: rest := mem_append_right _ (mem_cons_of_mem _ mem_cons_self)
    have hne := h.ne_zero hmem
    have hflag := (h.holds y hmem).free_ne_zero
    rw [hy]
    dsimp only
    by_cases hyfree : y.free = true
    · rw [if_pos ⟨hne, hflag.mpr hyfree⟩]
      refine ⟨_, rest, h.absorbed hbrk, rfl, hfree, ?_, suffix_cons _ _, ?_, ?_⟩
      · have hysize := hsizes y mem_cons_self
        show (b.size + y.size + 12) % 4 = 0
        omega
      · intro z hz
        exact (isChain_cons.mp hcoalesced).1 z hz hyfree
      · intro x hx hused
        rcases mem_cons.mp hx with rfl | hx
        · rw [hused] at hyfree
          exact nomatch hyfree
        · exact hx
    · rw [if_neg fun hand => hyfree (hflag.mp hand.2)]
      refine ⟨b, y :: rest, h, rfl, hfree, hsize, suffix_rfl, ?_, fun _ hx _ => hx⟩
      intro z hz
      obtain rfl := some.inj hz
      exact Bool.eq_false_of_not_eq_true hyfree

theorem lastAddr_concat {l : Block} : lastAddr (before ++ [l]) = l.addr := by
  unfold lastAddr
  rw [map_append, map_singleton, getLast?_concat]
  rfl

theorem Layout.lastAddr_apart {x : Block} {a : Nat} (h : Layout base s (before ++ after))
    (hx : x ∈ before ++ after) (ha : x.Contains headerSize a) :
    a < lastAddr before ∨ lastAddr before + headerSize ≤ a := by
  rcases eq_nil_or_concat before with rfl | ⟨init, l, rfl⟩
  · refine .inr ?_
    show 0 + headerSize ≤ a
    have hlow := ha.1
    omega
  · rw [concat_eq_append] at *
    rw [lastAddr_concat]
    exact h.payload_apart hx (mem_append_left _ (mem_append_right _ mem_cons_self)) ha

theorem Layout.findPrev (h : Layout base s (before ++ b :: after))
    (hfuel : (before ++ b :: after).length < addresses) :
    findPrev s.mem b.addr addresses s.heapList = some (lastAddr before) := by
  obtain ⟨hbefore, hafter⟩ := h.tiles.around
  have hchain := h.chain
  rcases eq_nil_or_concat before with rfl | ⟨init, l, rfl⟩
  · refine findPrev_of_first hchain (h.ne_zero mem_cons_self) (fun x hx => ?_) hfuel
    have hend := hafter x hx
    unfold headerSize at hend
    omega
  · rw [concat_eq_append] at *
    rw [lastAddr_concat]
    rw [append_assoc] at hchain hfuel
    refine findPrev_of_before hchain (fun x hx => ?_) ?_
    · have hend := hbefore x hx
      unfold headerSize at hend
      omega
    · rw [length_append] at hfuel
      omega

theorem Layout.coalescePrev (h : Layout base s (before ++ b :: after)) (hbrk : s.brk < addresses)
    (hcoalesced : Coalesced before) (hsize : b.size % 4 = 0) (hsizes : ∀ x ∈ before, x.size % 4 = 0) :
    ∃ c rest, Layout base { s with mem := coalescePrev s.mem (lastAddr before) b.addr }
        (rest ++ c :: after) ∧
      c.size % 4 = 0 ∧ rest <+: before ∧
      (∀ y ∈ rest.getLast?, y.free = false) ∧ ∀ x ∈ before, x.free = false → x ∈ rest := by
  unfold Malloc.coalescePrev
  rcases eq_nil_or_concat before with rfl | ⟨init, l, rfl⟩
  · exact ⟨b, [], h, hsize, prefix_rfl, fun _ hy => absurd hy (not_mem_none _), fun _ hx _ => hx⟩
  · rw [concat_eq_append] at *
    rw [lastAddr_concat]
    have hmem : l ∈ (init ++ [l]) ++ b :: after := mem_append_left _ (mem_append_right _ mem_cons_self)
    have hne := h.ne_zero hmem
    have hflag := (h.holds l hmem).free_ne_zero
    by_cases hlfree : l.free = true
    · rw [if_pos ⟨hne, hflag.mpr hlfree⟩]
      rw [append_assoc] at h
      refine ⟨_, init, h.absorbed hbrk, ?_, List.prefix_append _ _, ?_, ?_⟩
      · have hlsize := hsizes l (mem_append_right _ mem_cons_self)
        show (l.size + b.size + 12) % 4 = 0
        omega
      · exact (hcoalesced.around.2.2 hlfree).1
      · intro x hx hused
        rcases mem_append.mp hx with hx | hx
        · exact hx
        · obtain rfl := mem_singleton.mp hx
          rw [hused] at hlfree
          exact nomatch hlfree
    · rw [if_neg fun hand => hlfree (hflag.mp hand.2)]
      refine ⟨b, init ++ [l], h, hsize, prefix_rfl, ?_, fun _ hx _ => hx⟩
      intro z hz
      rw [getLast?_concat] at hz
      obtain rfl := some.inj hz
      exact Bool.eq_false_of_not_eq_true hlfree

theorem Sound.free (h : Sound base s (before ++ b :: after)) :
    ∃ s' blocks', free s (b.addr + headerSize) = some s' ∧ Sound base s' blocks' ∧
      Kept s s' (before ++ after) blocks' := by
  have hflagged := h.toLayout.setFree (v := 1) true rfl
  have hsizes := h.sizes
  rw [forall_mem_append, forall_mem_cons] at hsizes
  obtain ⟨hbefore, hafter, -⟩ := h.coalesced.around
  obtain ⟨c, right, hright, hcaddr, hcfree, hcsize, hsuffix, hhead, hkeepRight⟩ :=
    hflagged.coalesceNext h.brk_lt rfl hafter hsizes.2.1 hsizes.2.2
  have hlength : (before ++ c :: right).length < addresses := by
    have hle := hright.tiles.le
    have hbrk := h.brk_lt
    unfold headerSize at hle
    change _ ≤ s.brk at hle
    omega
  have hfind := hright.findPrev hlength
  obtain ⟨d, left, hleft, hdsize, hpre, hlast, hkeepLeft⟩ :=
    hright.coalescePrev h.brk_lt hbefore hcsize hsizes.1
  rw [hcaddr] at hfind hleft
  refine ⟨_, left ++ d :: right, ?_, ⟨hleft, ?_, ?_, h.aligned, h.base_pos, h.brk_lt⟩, ?_⟩
  · unfold Malloc.free
    rw [if_neg (by unfold headerSize; omega)]
    dsimp only
    rw [Nat.add_sub_cancel]
    exact congrArg (Option.bind · _) hfind
  · have hleft : Coalesced left := hbefore.prefix hpre
    exact coalesced_between hleft (hafter.suffix hsuffix) hlast hhead
  · refine forall_mem_append.mpr ⟨fun x hx => hsizes.1 x (hpre.subset hx),
      forall_mem_cons.mpr ⟨hdsize, fun x hx => hsizes.2.2 x (hsuffix.subset hx)⟩⟩
  · intro x hx hused
    refine ⟨?_, fun a ha => ?_⟩
    · rcases mem_append.mp hx with hx | hx
      · exact mem_append_left _ (hkeepLeft x hx hused)
      · exact mem_append_right _ (mem_cons_of_mem _ (hkeepRight x hx hused))
    · have hmem : x ∈ before ++ b :: after := by
        rcases mem_append.mp hx with hx | hx
        · exact mem_append_left _ hx
        · exact mem_append_right _ (mem_cons_of_mem _ hx)
      have hb := h.toLayout.payload_apart hmem mem_append_cons_self ha
      have hflag : store32 s.mem (b.addr + 8) 1 a = s.mem a :=
        store32_apart (by unfold headerSize at hb; omega)
      refine ((coalescePrev_apart ?_).trans (coalesceNext_apart hb)).trans hflag
      exact h.toLayout.lastAddr_apart hmem ha

end Operations

section Programs

variable {base : Nat} {p p' : Program} {blocks : List Block}

structure Good (base : Nat) (p : Program) (blocks : List Block) : Prop where
  sound : Sound base p.heap blocks
  live : ∀ x ∈ p.live, ∃ b ∈ blocks, b.free = false ∧ x.ptr = b.addr + headerSize ∧ x.size ≤ b.size
  distinct : p.live.Pairwise fun x y => x.ptr ≠ y.ptr

variable (h : Good base p blocks)

include h

theorem Good.contains_iff {x : Live} {b : Block} (hb : b ∈ blocks)
    (hptr : x.ptr = b.addr + headerSize) {a : Nat} :
    x.Contains p.heap.mem a ↔ b.Contains headerSize a := by
  have hsize := (h.sound.holds b hb).size
  unfold Live.Contains Block.Contains
  rw [hptr, Nat.add_sub_cancel, hsize]

theorem Good.malloc {n : Nat} {granted : Bool} (hallowed : p.allowed (.malloc n granted) = true) :
    ∃ p' blocks', p.step (.malloc n granted) = some p' ∧ Good base p' blocks' := by
  have hn : 1 ≤ n ∧ n < 2 ^ 31 - 32 := by
    change (decide (1 ≤ n) && decide (n < 2 ^ 31 - 32)) = true at hallowed
    rwa [Bool.and_eq_true, decide_eq_true_iff, decide_eq_true_iff] at hallowed
  dsimp only [Program.step]
  rcases h.sound.malloc granted hn.1 hn.2 with
    hnull | ⟨c, s', blocks', hcall, hsound, hc, hused, hsize, hkept, hfresh⟩
  · rw [hnull]
    exact ⟨p, blocks, rfl, h⟩
  · rw [hcall]
    refine ⟨_, blocks', rfl, ⟨hsound, ?_, ?_⟩⟩
    · refine forall_mem_cons.mpr ⟨⟨c, hc, hused, rfl, hsize⟩, fun x hx => ?_⟩
      obtain ⟨b, hb, hbused, hptr, hbsize⟩ := h.live x hx
      exact ⟨b, (hkept b hb hbused).1, hbused, hptr, hbsize⟩
    · refine List.Pairwise.cons (fun x hx hptr => ?_) h.distinct
      obtain ⟨b, hb, hbused, hbptr, -⟩ := h.live x hx
      exact hfresh b hb hbused (Nat.add_right_cancel (hbptr.symm.trans hptr.symm))

theorem Good.free {ptr : Nat} (hallowed : p.allowed (.free ptr) = true) :
    ∃ p' blocks', p.step (.free ptr) = some p' ∧ Good base p' blocks' ∧ ∀ x ∈ p'.live, ∀ a,
        (x.Contains p'.heap.mem a ↔ x.Contains p.heap.mem a) ∧
          (x.Contains p.heap.mem a → p'.heap.mem a = p.heap.mem a) := by
  obtain ⟨x, hx, hxptr⟩ := any_eq_true.mp hallowed
  obtain rfl := eq_of_beq hxptr
  obtain ⟨b, hb, hbused, hptr, -⟩ := h.live x hx
  obtain ⟨before, after, rfl⟩ := append_of_mem hb
  obtain ⟨s', blocks', hcall, hsound, hkept⟩ := h.sound.free
  have hothers : ∀ y ∈ p.live.filter (fun y => y.ptr != x.ptr), ∃ c ∈ before ++ after,
      c ∈ before ++ b :: after ∧ c.free = false ∧ y.ptr = c.addr + headerSize ∧ y.size ≤ c.size := by
    intro y hy
    obtain ⟨hylive, hne⟩ := mem_filter.mp hy
    obtain ⟨c, hc, hcused, hcptr, hcsize⟩ := h.live y hylive
    refine ⟨c, ?_, hc, hcused, hcptr, hcsize⟩
    rcases mem_append.mp hc with hc | hc
    · exact mem_append_left _ hc
    · rcases mem_cons.mp hc with rfl | hc
      · exact absurd (hcptr.trans hptr.symm) (bne_iff_ne.mp hne)
      · exact mem_append_right _ hc
  have hgood : Good base
      { heap := s'
        live := p.live.filter fun y => y.ptr != x.ptr } blocks' := by
    refine ⟨hsound, fun y hy => ?_, h.distinct.filter _⟩
    obtain ⟨c, hc, -, hcused, hcptr, hcsize⟩ := hothers y hy
    exact ⟨c, (hkept c hc hcused).1, hcused, hcptr, hcsize⟩
  refine ⟨_, blocks', ?_, hgood, fun y hy a => ?_⟩
  · dsimp only [Program.step]
    rw [hptr, hcall]
    rfl
  · obtain ⟨c, hc, hcold, hcused, hcptr, -⟩ := hothers y hy
    obtain ⟨hcnew, hbytes⟩ := hkept c hc hcused
    rw [hgood.contains_iff hcnew hcptr, h.contains_iff hcold hcptr]
    exact ⟨Iff.rfl, hbytes a⟩

theorem Good.write {a : Nat} {v : UInt8} (hallowed : p.allowed (.write a v) = true) :
    ∃ p' blocks', p.step (.write a v) = some p' ∧ Good base p' blocks' := by
  obtain ⟨x, hx, hcontains⟩ := any_eq_true.mp hallowed
  obtain ⟨b, hb, hbused, hptr, -⟩ := h.live x hx
  have ha := (h.contains_iff hb hptr).mp (of_decide_eq_true hcontains)
  have hsame : ∀ c ∈ blocks, SameHeader p.heap.mem (Function.update p.heap.mem a v) c.addr := by
    intro c hc i hlow hhigh
    have hapart := h.sound.payload_apart hb hc ha
    exact Function.update_of_ne (by omega) _ _
  refine ⟨_, blocks, rfl, ⟨⟨h.sound.toLayout.congr hsame, h.sound.coalesced, h.sound.sizes,
    h.sound.aligned, h.sound.base_pos, h.sound.brk_lt⟩, h.live, h.distinct⟩⟩

theorem Good.step {event : Event} (hallowed : p.allowed event = true) :
    ∃ p' blocks', p.step event = some p' ∧ Good base p' blocks' := by
  cases event with
  | malloc n granted => exact h.malloc hallowed
  | free ptr =>
    obtain ⟨p', blocks', hstep, hgood, -⟩ := h.free hallowed
    exact ⟨p', blocks', hstep, hgood⟩
  | write a v => exact h.write hallowed

theorem Good.run {events : List Event} (hlegal : p.legal events = true) :
    ∃ p' blocks', p.run events = some p' ∧ Good base p' blocks' := by
  induction events generalizing p blocks with
  | nil => exact ⟨p, blocks, rfl, h⟩
  | cons event events ih =>
    unfold Program.legal at hlegal
    rw [Bool.and_eq_true] at hlegal
    obtain ⟨p₁, blocks₁, hstep, hgood⟩ := h.step hlegal.1
    have hrest := hlegal.2
    rw [hstep] at hrest
    obtain ⟨p', blocks', hrun, hgood'⟩ := ih hgood hrest
    refine ⟨p', blocks', ?_, hgood'⟩
    show (p.step event).bind _ = _
    rw [hstep]
    exact hrun

omit h in
theorem start_good {mem : Mem} (haligned : base % 4 = 0) (hpos : 0 < base)
    (hlt : base < addresses) : Good base (Program.start mem base) [] where
  sound := ⟨⟨rfl, rfl, fun _ hb => absurd hb not_mem_nil⟩, isChain_nil,
    fun _ hb => absurd hb not_mem_nil, haligned, hpos, hlt⟩
  live := fun _ hx => absurd hx not_mem_nil
  distinct := List.Pairwise.nil

omit h in
theorem Tiles.aligned {p q : Nat} (h : Tiles headerSize p blocks q) (hp : p % 4 = 0)
    (hsizes : ∀ b ∈ blocks, b.size % 4 = 0) : ∀ b ∈ blocks, b.addr % 4 = 0 := by
  induction blocks generalizing p with
  | nil => exact fun _ hb => absurd hb not_mem_nil
  | cons b rest ih =>
    obtain ⟨rfl, hrest⟩ := h
    obtain ⟨hb, hsizes⟩ := forall_mem_cons.mp hsizes
    refine forall_mem_cons.mpr ⟨hp, ih hrest ?_ hsizes⟩
    unfold headerSize
    omega

theorem Good.disjoint : p.live.Pairwise fun x y => ∀ a, x.Contains p.heap.mem a →
    ¬ y.Contains p.heap.mem a := by
  refine h.distinct.imp_of_mem fun {x y} hx hy hne a hxa hya => ?_
  obtain ⟨b, hb, -, hbptr, -⟩ := h.live x hx
  obtain ⟨c, hc, -, hcptr, -⟩ := h.live y hy
  rw [h.contains_iff hb hbptr] at hxa
  rw [h.contains_iff hc hcptr] at hya
  obtain ⟨before, after, rfl⟩ := append_of_mem hb
  obtain ⟨hbefore, hafter⟩ := h.sound.tiles.around
  obtain ⟨hxlow, hxhigh⟩ := hxa
  obtain ⟨hylow, hyhigh⟩ := hya
  rcases mem_append.mp hc with hc | hc
  · have hend := hbefore c hc
    omega
  · rcases mem_cons.mp hc with rfl | hc
    · exact hne (hbptr.trans hcptr.symm)
    · have hend := hafter c hc
      omega

end Programs

/-- Whatever a program does within its live blocks, the blocks of the list tile the heap up to the break, and the
live payloads are aligned, large enough and disjoint. -/
theorem heap_tiled {mem : Mem} {base : Nat} {events : List Event} (haligned : base % 4 = 0)
    (hpos : 0 < base) (hlt : base < addresses) (hlegal : (Program.start mem base).legal events = true) :
    ∃ p blocks, (Program.start mem base).run events = some p ∧ Tiles headerSize base blocks p.heap.brk ∧
      Chain (nextOf p.heap.mem) 0 p.heap.heapList (blocks.map Block.addr) ∧
      (∀ b ∈ blocks, Holds p.heap.mem b) ∧
      Coalesced blocks ∧ (∀ x ∈ p.live, (∃ b ∈ blocks, b.free = false ∧ x.ptr = b.addr + headerSize) ∧
        x.ptr % 4 = 0 ∧ x.size ≤ sizeOf p.heap.mem (x.ptr - headerSize)) ∧
      (p.live.Pairwise fun x y => ∀ a, x.Contains p.heap.mem a → ¬ y.Contains p.heap.mem a) ∧
      ∀ ptr, p.allowed (.free ptr) = true → ∃ p', p.step (.free ptr) = some p' ∧
        ∀ x ∈ p'.live, ∀ a, (x.Contains p'.heap.mem a ↔ x.Contains p.heap.mem a) ∧
          (x.Contains p.heap.mem a → p'.heap.mem a = p.heap.mem a) := by
  obtain ⟨p, blocks, hrun, h⟩ := (@start_good base mem haligned hpos hlt).run hlegal
  refine ⟨p, blocks, hrun, h.sound.tiles, h.sound.chain, h.sound.holds, h.sound.coalesced, ?_,
    h.disjoint, fun ptr hallowed => ?_⟩
  · intro x hx
    obtain ⟨b, hb, hused, hptr, hsize⟩ := h.live x hx
    refine ⟨⟨b, hb, hused, hptr⟩, ?_, ?_⟩
    · have haddr := Tiles.aligned h.sound.tiles h.sound.aligned h.sound.sizes b hb
      rw [hptr]
      unfold headerSize
      omega
    · rw [hptr, Nat.add_sub_cancel, (h.sound.holds b hb).size]
      exact hsize
  · obtain ⟨p', blocks', hstep, -, hbytes⟩ := h.free hallowed
    exact ⟨p', hstep, hbytes⟩

def exampleRun : List Event :=
  [.malloc 1 true, .malloc 100 true, .malloc 8 true, .write 0x1000010 7, .free 0x1000020,
    .malloc 10 true, .malloc 200 false, .free 0x1000020, .free 0x100000C]

theorem heap_tiled_example : ∃ p blocks, (Program.start (fun _ => 0xCC) 0x1000000).run exampleRun = some p ∧
      Tiles headerSize 0x1000000 blocks p.heap.brk ∧ Coalesced blocks := by
  obtain ⟨p, blocks, hrun, htiles, -, -, hcoalesced, -⟩ :=
    @heap_tiled (fun _ => 0xCC) 0x1000000 exampleRun (by decide)
      (by decide) (by decide) (by decide)
  exact ⟨p, blocks, hrun, htiles, hcoalesced⟩

end JexOs.Malloc
