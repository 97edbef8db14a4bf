import JexOs.Lib.Ownership
import JexOs.Proof.JexFsDisk

/-!
# Who refers to which block

The blocks are sound when those that an inode refers to are marked in the bitmap and no two slots of allocated
inodes share one. During a call the inode it works on is a copy in memory, so soundness is stated for the table
with that copy in its place.
-/

namespace JexOs.JexFs

open ByteMem Ownership Function

inductive Slot where
  | direct (i : Fin 8)
  | indirect
  | entry (j : Fin 512)
  | double
  | first (i : Fin 512)
  | second (i j : Fin 512)
  deriving DecidableEq

def Slot.IsTable : Slot → Prop
  | .indirect => True
  | .double => True
  | .first _ => True
  | _ => False

def Slot.Under (s t : Slot) : Prop :=
  match s, t with
  | .entry _, .indirect => True
  | .first _, .double => True
  | .second _ _, .double => True
  | .second i _, .first i' => i = i'
  | _, _ => False

variable {s : Slot} {i b idx idx' lblock : Nat} {d' d : Mem} {v v' : Inode} {ino ino' : Nat → Inode}

theorem Slot.Under.isTable {t : Slot} (h : s.Under t) : t.IsTable := by
  cases t with
  | indirect => trivial
  | double => trivial
  | first i => trivial
  | direct i => cases s <;> exact h
  | entry i => cases s <;> exact h
  | second i j => cases s <;> exact h

def slotBlock (d : Mem) (v : Inode) : Slot → Nat
  | .direct i => (v.directBlocks i).toNat
  | .indirect => v.indirectBlock.toNat
  | .entry j =>
    if v.indirectBlock.toNat = 0 then 0 else load16 d (1024 * v.indirectBlock.toNat + 2 * j)
  | .double => v.doubleIndirect.toNat
  | .first i =>
    if v.doubleIndirect.toNat = 0 then 0 else load16 d (1024 * v.doubleIndirect.toNat + 2 * i)
  | .second i j =>
    if v.doubleIndirect.toNat = 0 then 0
    else if load16 d (1024 * v.doubleIndirect.toNat + 2 * i) = 0 then 0
    else load16 d (1024 * load16 d (1024 * v.doubleIndirect.toNat + 2 * i) + 2 * j)

theorem load16_block_congr (hi : i < 512) (h : ∀ k, k < 1024 → d' (1024 * b + k) = d (1024 * b + k)) :
    load16 d' (1024 * b + 2 * i) = load16 d (1024 * b + 2 * i) := by
  refine load16_congr fun k hlow hhigh => ?_
  rw [show k = 1024 * b + (k - 1024 * b) by omega]
  exact h _ (by omega)

theorem slotBlock_congr (h : ∀ t, s.Under t → slotBlock d v t ≠ 0 → ∀ k, k < 1024 →
      d' (1024 * slotBlock d v t + k) = d (1024 * slotBlock d v t + k)) : slotBlock d' v s =
      slotBlock d v s := by
  cases s with
  | direct i => rfl
  | indirect => rfl
  | double => rfl
  | entry j =>
    simp only [slotBlock]
    split
    · rfl
    · rename_i hne
      exact load16_block_congr j.isLt (h .indirect trivial hne)
  | first i =>
    simp only [slotBlock]
    split
    · rfl
    · rename_i hne
      exact load16_block_congr i.isLt (h .double trivial hne)
  | second i j =>
    simp only [slotBlock]
    split
    · rfl
    · rename_i hne
      have hfirst : load16 d' (1024 * v.doubleIndirect.toNat + 2 * i) =
          load16 d (1024 * v.doubleIndirect.toNat + 2 * i) :=
        load16_block_congr i.isLt (h .double trivial hne)
      rw [hfirst]
      split
      · rfl
      · rename_i hne'
        have htable := h (.first i) rfl
        simp only [slotBlock, if_neg hne] at htable
        exact load16_block_congr j.isLt (htable hne')

def Live (d : Mem) (idx : Nat) : Prop := idx < 1032 ∧ inodeBit d idx = true

def Used (d : Mem) (b : Nat) : Prop := 54 ≤ b ∧ b < 65536 ∧ blockBit d b = true

def Refs (d : Mem) (ino : Nat → Inode) (k : Nat × Slot) (b : Nat) : Prop :=
  Live d k.1 ∧ slotBlock d (ino k.1) k.2 = b ∧ b ≠ 0

structure Sound (d : Mem) (ino : Nat → Inode) : Prop where
  owned : Owned (Refs d ino) (Used d)
  /-- No block is ever entered into a second-level table. -/
  second_empty : ∀ idx, Live d idx → ∀ i j, slotBlock d (ino idx) (.second i j) = 0

def LostBlock (d : Mem) (ino : Nat → Inode) (b : Nat) : Prop := Lost (Refs d ino) (Used d) b

theorem owned_used (h : Owned (Refs d ino) (Used d)) (hlive : Live d idx) (hne : slotBlock d (ino idx) s ≠ 0) :
    Used d (slotBlock d (ino idx) s) :=
  h.used_of_ref (idx, s) _ ⟨hlive, rfl, hne⟩

theorem owned_unique (h : Owned (Refs d ino) (Used d)) (hlive : Live d idx)
    (hlive' : Live d idx') (s s' : Slot) (hne : slotBlock d (ino idx) s ≠ 0)
    (heq : slotBlock d (ino idx') s' = slotBlock d (ino idx) s) : idx' = idx ∧ s' = s := by
  have hkey := h.holder_unique (idx', s') (idx, s) _ ⟨hlive', heq, hne⟩ ⟨hlive, rfl, hne⟩
  exact Prod.mk.inj hkey

theorem Sound.used (h : Sound d ino) (hlive : Live d idx)
    (hne : slotBlock d (ino idx) s ≠ 0) : Used d (slotBlock d (ino idx) s) :=
  owned_used h.owned hlive hne

theorem Sound.unique (h : Sound d ino) (hlive : Live d idx) (hlive' : Live d idx') (s s' : Slot)
    (hne : slotBlock d (ino idx) s ≠ 0)
    (heq : slotBlock d (ino idx') s' = slotBlock d (ino idx) s) : idx' = idx ∧ s' = s :=
  owned_unique h.owned hlive hlive' s s' hne heq

def view (d : Mem) (idx : Nat) (v : Inode) : Nat → Inode := Function.update (inodeAt d) idx v

@[simp]
theorem view_self (d : Mem) (idx : Nat) (v : Inode) : view d idx v idx = v :=
  update_self _ _ _

theorem view_of_ne (h : i ≠ idx) : view d idx v i = inodeAt d i :=
  update_of_ne h _ _

@[simp]
theorem view_inodeAt (d : Mem) (idx : Nat) : view d idx (inodeAt d idx) = inodeAt d :=
  update_eq_self _ _

/-- The blocks one inode refers to are marked in the bitmap, and distinct. -/
structure Placed (d : Mem) (v : Inode) : Prop where
  used : ∀ s, slotBlock d v s ≠ 0 → Used d (slotBlock d v s)
  unique : ∀ s s', slotBlock d v s ≠ 0 → slotBlock d v s' = slotBlock d v s → s' = s

theorem placed_of_owned (h : Owned (Refs d (view d idx v)) (Used d)) (hidx : Live d idx) : Placed d v := by
  have hrefs : ∀ s, slotBlock d v s ≠ 0 →
      Refs d (view d idx v) (idx, s) (slotBlock d v s) := by
    intro s hne
    refine ⟨hidx, ?_, hne⟩
    rw [view_self]
  refine ⟨fun s hne => h.used_of_ref _ _ (hrefs s hne), fun s s' hne heq => ?_⟩
  have hrefs' := hrefs s' (by rwa [heq])
  rw [heq] at hrefs'
  exact (Prod.mk.inj (h.holder_unique _ _ _ hrefs' (hrefs s hne))).2

theorem live_congr (h : ∀ k, 2048 ≤ k → k < 3072 → d' k = d k) : Live d' idx ↔ Live d idx := by
  simp only [Live, inodeBit]
  refine and_congr_right fun hidx => ?_
  rw [test_congr (h _ (by omega) (by omega))]

theorem used_congr (h : ∀ k, 3072 ≤ k → k < 11264 → d' k = d k) : Used d' b ↔ Used d b := by
  simp only [Used, blockBit]
  refine and_congr_right fun _ => and_congr_right fun hb => ?_
  rw [test_congr (h _ (by omega) (by omega))]

theorem view_congr (hi : i < 1032)
    (h : ∀ k, 11264 ≤ k → k < 55296 → k < 11264 + 42 * idx ∨ 11264 + 42 * idx + 42 ≤ k →
      d' k = d k) : view d' idx v i = view d idx v i := by
  by_cases hne : i = idx
  · rw [hne, view_self, view_self]
  · rw [view_of_ne hne, view_of_ne hne]
    refine inodeAt_congr fun k hk hk' => h k (by omega) (by omega) ?_
    rcases Nat.lt_or_gt_of_ne hne with hlt | hgt
    · left
      omega
    · right
      omega

theorem owned_congr (h : Owned (Refs d ino) (Used d))
    (hlive : ∀ idx, Live d' idx ↔ Live d idx) (hused : ∀ b, Used d' b ↔ Used d b)
    (hslots : ∀ idx, Live d idx → ∀ s, slotBlock d' (ino' idx) s = slotBlock d (ino idx) s) :
    Owned (Refs d' ino') (Used d') ∧ ∀ b, LostBlock d' ino' b ↔ LostBlock d ino b := by
  refine h.congr (fun k b => ?_) hused
  simp only [Refs, hlive]
  refine and_congr_right fun hk => ?_
  rw [hslots k.1 hk]

theorem Sound.congr (h : Sound d ino) (hlive : ∀ idx, Live d' idx ↔ Live d idx)
    (hused : ∀ b, Used d' b ↔ Used d b)
    (hslots : ∀ idx, Live d idx → ∀ s, slotBlock d' (ino' idx) s = slotBlock d (ino idx) s) :
    Sound d' ino' ∧ ∀ b, LostBlock d' ino' b ↔ LostBlock d ino b := by
  obtain ⟨howned, hlost⟩ := owned_congr h.owned hlive hused hslots
  refine ⟨⟨howned, fun idx hidx i j => ?_⟩, hlost⟩
  have hidx' := (hlive idx).mp hidx
  rw [hslots idx hidx']
  exact h.second_empty idx hidx' i j

theorem zero_not_live (i : Nat) : ¬Live zeroBlock i := by
  rintro ⟨-, hbit⟩
  simp [inodeBit, Bitmap.test, zeroBlock] at hbit

theorem zero_sound : Sound zeroBlock (inodeAt zeroBlock) :=
  { owned :=
      { used_of_ref := fun k _ hk => absurd hk.1 (zero_not_live k.1)
        holder_unique := fun k _ _ hk => absurd hk.1 (zero_not_live k.1) }
    second_empty := fun i hi => absurd hi (zero_not_live i) }

structure Inode.Sub (v v' : Inode) : Prop where
  direct : ∀ i, v.directBlocks i = 0 ∨ v.directBlocks i = v'.directBlocks i
  indirect : v.indirectBlock = 0 ∨ v.indirectBlock = v'.indirectBlock
  double : v.doubleIndirect = 0 ∨ v.doubleIndirect = v'.doubleIndirect

theorem Inode.Sub.refl (v : Inode) : v.Sub v := ⟨fun _ => .inr rfl, .inr rfl, .inr rfl⟩

theorem Inode.Sub.trans {v'' : Inode} (h : v.Sub v') (h' : v'.Sub v'') : v.Sub v'' := by
  refine ⟨fun i => ?_, ?_, ?_⟩
  · rcases h.direct i with h0 | heq
    · exact .inl h0
    · rw [heq]
      exact h'.direct i
  · rcases h.indirect with h0 | heq
    · exact .inl h0
    · rw [heq]
      exact h'.indirect
  · rcases h.double with h0 | heq
    · exact .inl h0
    · rw [heq]
      exact h'.double

theorem Inode.Sub.slotBlock_eq (h : v.Sub v')
    (hne : slotBlock d v s ≠ 0) (d' : Mem) : slotBlock d' v' s = slotBlock d' v s := by
  cases s with
  | direct i =>
    rcases h.direct i with h0 | heq
    · simp [slotBlock, h0] at hne
    · simp only [slotBlock, heq]
  | indirect =>
    rcases h.indirect with h0 | heq
    · simp [slotBlock, h0] at hne
    · simp only [slotBlock, heq]
  | entry j =>
    rcases h.indirect with h0 | heq
    · simp [slotBlock, h0] at hne
    · simp only [slotBlock, heq]
  | double =>
    rcases h.double with h0 | heq
    · simp [slotBlock, h0] at hne
    · simp only [slotBlock, heq]
  | first i =>
    rcases h.double with h0 | heq
    · simp [slotBlock, h0] at hne
    · simp only [slotBlock, heq]
  | second i j =>
    rcases h.double with h0 | heq
    · simp [slotBlock, h0] at hne
    · simp only [slotBlock, heq]

/-- What the call on inode `idx` leaves alone between two moments, with its copies `v` and `v'` of the inode. -/
structure Stays (idx : Nat) (d : Mem) (v : Inode) (d' : Mem) (v' : Inode) : Prop where
  owned : Owned (Refs d' (view d' idx v')) (Used d')
  metadata : ∀ k, (1024 ≤ k ∧ k < 3072) ∨ (11264 ≤ k ∧ k < 55296) →
    k < 11264 + 42 * idx ∨ 11264 + 42 * idx + 42 ≤ k → d' k = d k
  others : ∀ i, i ≠ idx → Live d i → ∀ s, slotBlock d (inodeAt d i) s ≠ 0 → ∀ k, k < 1024 →
    d' (1024 * slotBlock d (inodeAt d i) s + k) = d (1024 * slotBlock d (inodeAt d i) s + k)
  kept : ∀ s, slotBlock d v s ≠ 0 → slotBlock d' v' s = slotBlock d v s

section Stays

variable {idx : Nat} {d d' d'' : Mem} {v v' v'' : Inode}

theorem Stays.live (h : Stays idx d v d' v') (i : Nat) : Live d' i ↔ Live d i :=
  live_congr fun k hlow hhigh => h.metadata k (by omega) (by omega)

variable {i b : Nat}

theorem Stays.inodeAt_eq (h : Stays idx d v d' v') (hi : i < 1032)
    (hne : i ≠ idx) : inodeAt d' i = inodeAt d i := by
  have hview := view_congr (v := v) hi fun k hk hk' hrec => h.metadata k (.inr ⟨hk, hk'⟩) hrec
  rwa [view_of_ne hne, view_of_ne hne] at hview

theorem Stays.slots_other (h : Stays idx d v d' v') (hne : i ≠ idx)
    (hlive : Live d i) (s : Slot) : slotBlock d' (inodeAt d' i) s = slotBlock d (inodeAt d i) s := by
  rw [h.inodeAt_eq hlive.1 hne]
  exact slotBlock_congr fun t _ ht k hk => h.others i hne hlive t ht k hk

variable (h : Owned (Refs d (view d idx v)) (Used d))

include h

theorem Stays.refl : Stays idx d v d v :=
  { owned := h
    metadata := fun _ _ _ => rfl
    others := fun _ _ _ _ _ _ _ => rfl
    kept := fun _ _ => rfl }

omit h in
theorem Stays.trans (h : Stays idx d v d' v') (h' : Stays idx d' v' d'' v'') : Stays idx d v d'' v'' :=
  { owned := h'.owned
    metadata := fun k hk hrec => (h'.metadata k hk hrec).trans (h.metadata k hk hrec)
    others := by
      intro i hne hlive s hs k hk
      have heq := h.slots_other hne hlive s
      have hlater := h'.others i hne ((h.live i).mpr hlive) s (by rwa [heq]) k hk
      rw [heq] at hlater
      rw [hlater, h.others i hne hlive s hs k hk]
    kept := by
      intro s hs
      rw [h'.kept s (by rwa [h.kept s hs]), h.kept s hs] }

theorem Stays.of_slots (hidx : Live d idx) (hbits : ∀ k, 3072 ≤ k → k < 11264 → d' k = d k)
    (hmeta : ∀ k, (1024 ≤ k ∧ k < 3072) ∨ (11264 ≤ k ∧ k < 55296) →
      k < 11264 + 42 * idx ∨ 11264 + 42 * idx + 42 ≤ k → d' k = d k) (hslots : ∀ i, Live d i → ∀ s,
      slotBlock d' (view d' idx v' i) s = slotBlock d (view d idx v i) s)
    (hothers : ∀ i, i ≠ idx → Live d i → ∀ s, slotBlock d (view d idx v i) s ≠ 0 → ∀ k, k < 1024 →
      d' (1024 * slotBlock d (view d idx v i) s + k) =
        d (1024 * slotBlock d (view d idx v i) s + k)) : Stays idx d v d' v' :=
  { owned := (owned_congr h
      (fun i => live_congr fun k hk hk' => hmeta k (by omega) (by omega))
      (fun b => used_congr hbits) hslots).1
    metadata := hmeta
    others := by
      intro i hne hi s hs k hk
      have hother := hothers i hne hi s
      rw [view_of_ne hne] at hother
      exact hother hs k hk
    kept := by
      intro s _
      have hown := hslots idx hidx s
      rwa [view_self, view_self] at hown }

omit h in
theorem held_write (hchange : ∀ k, 1024 ≤ k → k / 1024 ≠ b → d' k = d k) {s : Slot}
    (hne : slotBlock d (view d idx v i) s ≠ 0) (hb : slotBlock d (view d idx v i) s ≠ b) (k : Nat)
    (hk : k < 1024) :
    d' (1024 * slotBlock d (view d idx v i) s + k) = d (1024 * slotBlock d (view d idx v i) s + k) := by
  exact hchange _ (by omega) (by omega)

omit h in
theorem slots_write (hb : 54 ≤ b) (hchange : ∀ k, 1024 ≤ k → k / 1024 ≠ b → d' k = d k)
    (hheld : ∀ i s, Live d i → slotBlock d (view d idx v i) s = b → i = idx ∧ ¬s.IsTable)
    (hi : Live d i) (s : Slot) :
    slotBlock d' (view d' idx v i) s = slotBlock d (view d idx v i) s := by
  rw [view_congr hi.1 fun k hk hk' _ => hchange k (by omega) (by omega)]
  refine slotBlock_congr fun t ht hne k hk => held_write hchange hne ?_ k hk
  exact fun heq => (hheld i t hi heq).2 ht.isTable

theorem Stays.write (hidx : Live d idx) (hb : 54 ≤ b) (hchange : ∀ k, 1024 ≤ k → k / 1024 ≠ b → d' k = d k)
    (hheld : ∀ i s, Live d i → slotBlock d (view d idx v i) s = b → i = idx ∧ ¬s.IsTable) :
    Stays idx d v d' v :=
  Stays.of_slots h hidx (fun k hk hk' => hchange k (by omega) (by omega))
    (fun k hk _ => hchange k (by omega) (by omega))
    (fun _ hi s => slots_write hb hchange hheld hi s)
    fun i hne hi s hs k hk => held_write hchange hs (fun heq => hne (hheld i s hi heq).1) k hk

omit h in
theorem slotBlock_resize (d : Mem) (v : Inode) (n : UInt32) (s : Slot) :
    slotBlock d { v with size := n } s = slotBlock d v s := by
  cases s <;> rfl

omit h in
theorem slots_resize (d : Mem) (idx : Nat) (v : Inode) (n : UInt32) (i : Nat) (s : Slot) :
    slotBlock d (view d idx { v with size := n } i) s = slotBlock d (view d idx v i) s := by
  by_cases hne : i = idx
  · rw [hne, view_self, view_self, slotBlock_resize]
  · rw [view_of_ne hne, view_of_ne hne]

theorem Stays.resize (hidx : Live d idx) (n : UInt32) : Stays idx d v d { v with size := n } :=
  Stays.of_slots h hidx (fun _ _ _ => rfl) (fun _ _ _ => rfl)
    (fun i _ s => slots_resize d idx v n i s) fun _ _ _ _ _ _ _ => rfl

omit h in
theorem blit_record_of_outside {k : Nat} (hk : k < 11264 + 42 * idx ∨ 11264 + 42 * idx + 42 ≤ k) :
    blit d (11264 + 42 * idx) 42 v.encode k = d k := by
  rcases hk with hk | hk
  · exact blit_of_lt hk
  · exact blit_of_ge hk

theorem held_commit (hidx : idx < 1032)
    (hi : Live d i) {s : Slot} (hne : slotBlock d (view d idx v i) s ≠ 0) (k : Nat) :
    blit d (11264 + 42 * idx) 42 v.encode (1024 * slotBlock d (view d idx v i) s + k) =
      d (1024 * slotBlock d (view d idx v i) s + k) := by
  have hge := (owned_used h hi hne).1
  exact blit_record_of_outside (.inr (by omega))

theorem slots_commit (hidx : idx < 1032) (hi : Live d i) (s : Slot) :
    slotBlock (blit d (11264 + 42 * idx) 42 v.encode)
      (view (blit d (11264 + 42 * idx) 42 v.encode) idx v i) s =
        slotBlock d (view d idx v i) s := by
  rw [view_congr hi.1 fun k _ _ hk => blit_record_of_outside hk]
  exact slotBlock_congr fun t _ ht k _ => held_commit h hidx hi ht k

theorem Stays.commit (hidx : Live d idx) : Stays idx d v (blit d (11264 + 42 * idx) 42 v.encode) v := by
  have hlt := hidx.1
  exact Stays.of_slots h hidx (fun k _ _ => blit_record_of_outside (by omega))
    (fun k _ hk => blit_record_of_outside hk) (fun i hi s => slots_commit h hlt hi s)
    fun i _ hi s hs k _ => held_commit h hlt hi hs k

end Stays

/-- What the call on inode `idx` has done between two moments. Where `c` holds it has lost no block. -/
structure Works (c : Prop) (idx : Nat) (d : Mem) (v : Inode) (d' : Mem) (v' : Inode) :
    Prop where
  sound : Sound d' (view d' idx v')
  lost : c → ∀ b, LostBlock d' (view d' idx v') b → LostBlock d (view d idx v) b
  metadata : ∀ k, (1024 ≤ k ∧ k < 3072) ∨ (11264 ≤ k ∧ k < 55296) →
    k < 11264 + 42 * idx ∨ 11264 + 42 * idx + 42 ≤ k → d' k = d k
  others : ∀ i, i ≠ idx → Live d i → ∀ s, slotBlock d (inodeAt d i) s ≠ 0 → ∀ k, k < 1024 →
    d' (1024 * slotBlock d (inodeAt d i) s + k) = d (1024 * slotBlock d (inodeAt d i) s + k)
  sub : v.Sub v'
  kept : ∀ s, slotBlock d v s ≠ 0 → slotBlock d' v' s = slotBlock d v s
  mode : v'.mode = v.mode

section Works

variable {c : Prop} {idx : Nat} {d d' d'' : Mem} {v v' v'' : Inode}

section

variable (h : Works c idx d v d' v')

include h

theorem Works.stays : Stays idx d v d' v' :=
  { h with owned := h.sound.owned }

omit h in
theorem Stays.works (hstays : Stays idx d v d' v') (h : Sound d (view d idx v))
    (hbits : ∀ k, 3072 ≤ k → k < 11264 → d' k = d k) (hslots : ∀ i, Live d i → ∀ s,
      slotBlock d' (view d' idx v' i) s = slotBlock d (view d idx v i) s)
    (hsub : v.Sub v') (hmode : v'.mode = v.mode) : Works c idx d v d' v' := by
  obtain ⟨hsound, hlost⟩ := h.congr hstays.live (fun b => used_congr hbits) hslots
  exact
    { hstays with
      sound := hsound
      lost := fun _ b hb => (hlost b).mp hb
      sub := hsub
      mode := hmode }

theorem Works.live (i : Nat) : Live d' i ↔ Live d i := h.stays.live i

theorem Works.inodeAt_eq {i : Nat} (hi : i < 1032) (hne : i ≠ idx) :
    inodeAt d' i = inodeAt d i := h.stays.inodeAt_eq hi hne

omit h in
theorem Works.refl (h : Sound d (view d idx v)) : Works c idx d v d v :=
  { sound := h
    lost := fun _ _ hb => hb
    metadata := fun _ _ _ => rfl
    others := fun _ _ _ _ _ _ _ => rfl
    sub := Inode.Sub.refl v
    kept := fun _ _ => rfl
    mode := rfl }

theorem Works.trans (h' : Works c idx d' v' d'' v'') : Works c idx d v d'' v'' :=
  { h.stays.trans h'.stays with
    sound := h'.sound
    lost := fun hc b hb => h.lost hc b (h'.lost hc b hb)
    sub := h.sub.trans h'.sub
    mode := h'.mode.trans h.mode }

theorem Works.weaken {c' : Prop} (himp : c' → c) : Works c' idx d v d' v' :=
  { h with lost := fun hc => h.lost (himp hc) }

end

theorem Works.write {b : Nat} (h : Sound d (view d idx v)) (hidx : Live d idx) (hb : 54 ≤ b)
    (hchange : ∀ k, 1024 ≤ k → k / 1024 ≠ b → d' k = d k)
    (hheld : ∀ i s, Live d i → slotBlock d (view d idx v i) s = b → i = idx ∧ ¬s.IsTable) :
    Works c idx d v d' v :=
  (Stays.write h.owned hidx hb hchange hheld).works h
    (fun k hk hk' => hchange k (by omega) (by omega))
    (fun _ hi s => slots_write hb hchange hheld hi s) (Inode.Sub.refl v) rfl

theorem Works.resize (h : Sound d (view d idx v)) (hidx : Live d idx) (n : UInt32) :
    Works c idx d v d { v with size := n } :=
  (Stays.resize h.owned hidx n).works h (fun _ _ _ => rfl)
    (fun i _ s => slots_resize d idx v n i s) ⟨fun _ => .inr rfl, .inr rfl, .inr rfl⟩ rfl

theorem Works.commit (h : Sound d (view d idx v)) (hidx : Live d idx) :
    Works c idx d v (blit d (11264 + 42 * idx) 42 v.encode) v := by
  have hlt := hidx.1
  exact (Stays.commit h.owned hidx).works h (fun k _ _ => blit_record_of_outside (by omega))
    (fun i hi s => slots_commit h.owned hlt hi s) (Inode.Sub.refl v) rfl

theorem Works.forget (h : Works c idx d v d' v') (hidx : Live d idx) : Works (c ∧ v' = v) idx d v d' v := by
  have hsub : ∀ k b, Refs d' (view d' idx v) k b → Refs d' (view d' idx v') k b := by
    rintro ⟨i, s⟩ b ⟨hi, heq, hb⟩
    refine ⟨hi, ?_, hb⟩
    by_cases hne : i = idx
    · subst hne
      rw [view_self] at heq ⊢
      rw [h.sub.slotBlock_eq (d := d') (by rwa [heq]), heq]
    · rw [view_of_ne hne] at heq ⊢
      exact heq
  exact
    { sound :=
        { owned := h.sound.owned.drop hsub
          second_empty := by
            intro i hi a b
            have hempty := h.sound.second_empty i hi a b
            by_cases hne : i = idx
            · subst hne
              rw [view_self] at hempty ⊢
              by_contra hfilled
              rw [h.sub.slotBlock_eq hfilled] at hempty
              exact hfilled hempty
            · rw [view_of_ne hne] at hempty ⊢
              exact hempty }
      lost := by
        rintro ⟨hc, rfl⟩ b hb
        exact h.lost hc b hb
      metadata := h.metadata
      others := h.others
      sub := Inode.Sub.refl v
      kept := fun s hs => (h.sub.slotBlock_eq hs d').symm.trans (h.kept s hs)
      mode := rfl }

theorem blockBit_clear (d : Mem) (nb b : Nat) :
    blockBit (Bitmap.clear d (24576 + nb)) b = (!decide (b = nb) && blockBit d b) := by
  unfold blockBit
  rw [Bitmap.test_clear]
  simp only [Nat.add_left_cancel_iff]

theorem Works.free {nb : Nat} (h : Sound d (view d idx v)) (hidx : Live d idx)
    (hlost : LostBlock d (view d idx v) nb) : Works c idx d v (Bitmap.clear d (24576 + nb)) v ∧
      ∀ b, LostBlock (Bitmap.clear d (24576 + nb)) (view (Bitmap.clear d (24576 + nb)) idx v) b → b ≠ nb := by
  obtain ⟨⟨hnb, hnb', -⟩, hnone⟩ := hlost
  have hsame : ∀ k, k < 3072 ∨ 11264 ≤ k → Bitmap.clear d (24576 + nb) k = d k :=
    fun k hk => clear_of_ne (by omega)
  have hview : ∀ i, i < 1032 → view (Bitmap.clear d (24576 + nb)) idx v i = view d idx v i :=
    fun i hi => view_congr hi fun k hk hk' _ => hsame k (by omega)
  have hblock : ∀ i s, Live d i → slotBlock d (view d idx v i) s ≠ 0 → ∀ k, k < 1024 →
      Bitmap.clear d (24576 + nb) (1024 * slotBlock d (view d idx v i) s + k) =
        d (1024 * slotBlock d (view d idx v i) s + k) := by
    intro i s hi hne k _
    have hge := (h.used hi hne).1
    exact hsame _ (by omega)
  have hlive : ∀ i, Live (Bitmap.clear d (24576 + nb)) i ↔ Live d i :=
    fun i => live_congr fun k hk hk' => hsame k (by omega)
  have hslots : ∀ i, Live d i → ∀ s, slotBlock (Bitmap.clear d (24576 + nb))
      (view (Bitmap.clear d (24576 + nb)) idx v i) s = slotBlock d (view d idx v i) s := by
    intro i hi s
    rw [hview i hi.1]
    exact slotBlock_congr fun t _ ht k hk => hblock i t hi ht k hk
  have hrefs : Refs (Bitmap.clear d (24576 + nb)) (view (Bitmap.clear d (24576 + nb)) idx v) =
      Refs d (view d idx v) := by
    funext k b
    simp only [Refs, hlive]
    refine propext (and_congr_right fun hk => ?_)
    rw [hslots k.1 hk]
  have hused : ∀ b, Used (Bitmap.clear d (24576 + nb)) b ↔ Used d b ∧ b ≠ nb := by
    intro b
    simp only [Used, blockBit_clear, Bool.and_eq_true, Bool.not_eq_true', decide_eq_false_iff_not]
    tauto
  obtain ⟨howned, hlost'⟩ := h.owned.free hnone hused
  have hback : ∀ b, LostBlock (Bitmap.clear d (24576 + nb))
      (view (Bitmap.clear d (24576 + nb)) idx v) b → LostBlock d (view d idx v) b ∧ b ≠ nb := by
    intro b hb
    unfold LostBlock at hb
    rw [hrefs] at hb
    exact hlost' b hb
  refine ⟨?_, fun b hb => (hback b hb).2⟩
  exact
    { sound :=
        { owned := by rwa [hrefs]
          second_empty := by
            intro i hi a b
            have hi' := (hlive i).mp hi
            rw [hslots i hi']
            exact h.second_empty i hi' a b }
      lost := fun _ b hb => (hback b hb).1
      metadata := fun k hk _ => hsame k (by omega)
      others := by
        intro i hne hi s hs k hk
        have hother := hblock i s hi
        rw [view_of_ne hne] at hother
        exact hother hs k hk
      sub := Inode.Sub.refl v
      kept := by
        intro s _
        have hown := hslots idx hidx s
        rwa [view_self, view_self] at hown
      mode := rfl }

end Works

structure Links (d : Mem) (v : Inode) (d' : Mem) (v' : Inode) (s₀ : Slot) (nb : Nat) : Prop where
  low : 54 ≤ nb
  high : nb < 65536
  free : blockBit d nb = false
  bits : ∀ b, b < 65536 → blockBit d' b = (decide (b = nb) || blockBit d b)
  empty : slotBlock d v s₀ = 0
  not_second : ∀ i j, s₀ ≠ .second i j
  slots : ∀ s, slotBlock d' v' s = if s = s₀ then nb else slotBlock d v s
  rest : ∀ k, 1024 ≤ k → k < 3072 ∨ 11264 ≤ k → k / 1024 ≠ nb →
    (∀ s, s.IsTable → slotBlock d v s ≠ k / 1024) → d' k = d k
  sub : v.Sub v'
  mode : v'.mode = v.mode
  size : v'.size = v.size

structure Extends (idx : Nat) (d : Mem) (v : Inode) (d' : Mem) (v' : Inode) : Prop
    extends Stays idx d v d' v' where
  data : ∀ s, ¬s.IsTable → slotBlock d v s ≠ 0 → ∀ k, k < 1024 →
    d' (1024 * slotBlock d v s + k) = d (1024 * slotBlock d v s + k)
  table : ∀ k, 11264 ≤ k → k < 55296 → d' k = d k
  size : v'.size = v.size

section Extends

variable {idx nb : Nat} {d d' d'' : Mem} {v v' v'' : Inode} {s₀ : Slot}

theorem Extends.refl (h : Owned (Refs d (view d idx v)) (Used d)) : Extends idx d v d v :=
  { Stays.refl h with
    data := fun _ _ _ _ _ => rfl
    table := fun _ _ _ => rfl
    size := rfl }

theorem Extends.trans (h : Extends idx d v d' v') (h' : Extends idx d' v' d'' v'') : Extends idx d v d'' v'' :=
  { h.toStays.trans h'.toStays with
    data := by
      intro s hs hne k hk
      have hkept := h.kept s hne
      have hlater := h'.data s hs (by rwa [hkept]) k hk
      rw [hkept] at hlater
      rw [hlater, h.data s hs hne k hk]
    table := fun k hk hk' => (h'.table k hk hk').trans (h.table k hk hk')
    size := h'.size.trans h.size }

section

variable (hlink : Links d v d' v' s₀ nb)

include hlink

theorem Links.not_used : ¬Used d nb := by
  rintro ⟨-, -, hbit⟩
  rw [hlink.free] at hbit
  cases hbit

theorem Links.used (b : Nat) : Used d' b ↔ Used d b ∨ b = nb := by
  constructor
  · rintro ⟨hb, hb', hbit⟩
    rw [hlink.bits b hb', Bool.or_eq_true, decide_eq_true_eq] at hbit
    rcases hbit with heq | hbit
    · exact .inr heq
    · exact .inl ⟨hb, hb', hbit⟩
  · rintro (⟨hb, hb', hbit⟩ | rfl)
    · exact ⟨hb, hb', by rw [hlink.bits b hb', hbit, Bool.or_true]⟩
    · exact ⟨hlink.low, hlink.high, by simp [hlink.bits _ hlink.high]⟩

theorem Links.kept (s : Slot) (hs : slotBlock d v s ≠ 0) : slotBlock d' v' s = slotBlock d v s := by
  rw [hlink.slots, if_neg]
  rintro rfl
  exact hs hlink.empty

theorem Links.placed (h : Placed d v) : Placed d' v' := by
  have hnb := hlink.not_used
  refine ⟨fun s hne => ?_, fun s s' hne heq => ?_⟩
  · rw [hlink.slots] at hne ⊢
    rw [hlink.used]
    split at hne
    · rename_i hs
      rw [if_pos hs]
      exact .inr rfl
    · rename_i hs
      rw [if_neg hs]
      exact .inl (h.used s hne)
  · rw [hlink.slots] at hne
    rw [hlink.slots, hlink.slots] at heq
    by_cases hs : s = s₀
    · by_cases hs' : s' = s₀
      · rw [hs, hs']
      · rw [if_pos hs, if_neg hs'] at heq
        rw [if_pos hs] at hne
        have hused := h.used s' (by rwa [heq])
        rw [heq] at hused
        exact absurd hused hnb
    · rw [if_neg hs] at hne heq
      by_cases hs' : s' = s₀
      · rw [if_pos hs'] at heq
        have hused := h.used s hne
        rw [← heq] at hused
        exact absurd hused hnb
      · rw [if_neg hs'] at heq
        exact h.unique s s' hne heq

theorem Links.metadata (h : Placed d v) (k : Nat)
    (hk : (1024 ≤ k ∧ k < 3072) ∨ (11264 ≤ k ∧ k < 55296)) : d' k = d k := by
  have hlow := hlink.low
  refine hlink.rest k (by omega) (by omega) (by omega) fun s _ heq => ?_
  have hge := (h.used s (by omega)).1
  omega

theorem Links.held (h : Owned (Refs d (view d idx v)) (Used d))
    (hidx : Live d idx) {i : Nat} {s : Slot} (hi : Live d i) (hother : i ≠ idx ∨ ¬s.IsTable)
    (hne : slotBlock d (view d idx v i) s ≠ 0) (k : Nat) (hk : k < 1024) :
    d' (1024 * slotBlock d (view d idx v i) s + k) = d (1024 * slotBlock d (view d idx v i) s + k) := by
  have hused := owned_used h hi hne
  have hdiv : (1024 * slotBlock d (view d idx v i) s + k) / 1024 = slotBlock d (view d idx v i) s := by omega
  have hge := hused.1
  refine hlink.rest _ (by omega) (by omega) ?_ ?_
  · rw [hdiv]
    intro heq
    rw [heq] at hused
    exact hlink.not_used hused
  · rw [hdiv]
    intro s' hs' heq
    have hown := owned_unique h hi hidx s s' hne
    rw [view_self] at hown
    obtain ⟨rfl, rfl⟩ := hown heq
    rcases hother with hne' | hdata
    · exact hne' rfl
    · exact hdata hs'

theorem Links.slots_other (h : Owned (Refs d (view d idx v)) (Used d)) (hidx : Live d idx)
    {i : Nat} (hne : i ≠ idx)
    (hi : Live d i) (s : Slot) : slotBlock d' (view d' idx v' i) s = slotBlock d (view d idx v i) s := by
  have hcontents := fun s => hlink.held h hidx hi (s := s) (.inl hne)
  have hinode : inodeAt d' i = inodeAt d i := inodeAt_congr fun k hk hk' =>
    hlink.metadata (placed_of_owned h hidx) k (by have := hi.1; omega)
  rw [view_of_ne hne] at hcontents ⊢
  rw [view_of_ne hne, hinode]
  exact slotBlock_congr fun t _ ht k hk => hcontents t ht k hk

theorem Links.live (h : Placed d v) (i : Nat) : Live d' i ↔ Live d i :=
  live_congr fun k _ _ => hlink.metadata h k (by omega)

theorem Links.refs (h : Owned (Refs d (view d idx v)) (Used d)) (hidx : Live d idx)
    (k : Nat × Slot) (b : Nat) :
    Refs d' (view d' idx v') k b ↔ Refs d (view d idx v) k b ∨ (k = (idx, s₀) ∧ b = nb) := by
  obtain ⟨i, s⟩ := k
  have hnbne : nb ≠ 0 := by
    have := hlink.low
    omega
  simp only [Refs, hlink.live (placed_of_owned h hidx)]
  by_cases hne : i = idx
  · subst hne
    rw [view_self, view_self, hlink.slots]
    by_cases hs : s = s₀
    · subst hs
      simp only [if_true, hlink.empty, true_and]
      constructor
      · rintro ⟨-, rfl, -⟩
        exact .inr rfl
      · rintro (⟨-, rfl, h0⟩ | rfl)
        · exact absurd rfl h0
        · exact ⟨hidx, rfl, hnbne⟩
    · simp [hs]
  · constructor
    · rintro ⟨hi, heq, hb⟩
      rw [hlink.slots_other h hidx hne hi] at heq
      exact .inl ⟨hi, heq, hb⟩
    · rintro (⟨hi, heq, hb⟩ | ⟨heq, -⟩)
      · rw [← hlink.slots_other h hidx hne hi] at heq
        exact ⟨hi, heq, hb⟩
      · exact absurd (Prod.mk.inj heq).1 hne

end

theorem Extends.link (h : Owned (Refs d (view d idx v)) (Used d)) (hidx : Live d idx)
    (hlink : Links d v d' v' s₀ nb) : Extends idx d v d' v' :=
  { owned := (h.grow hlink.not_used (hlink.refs h hidx) hlink.used).1
    metadata := fun k hk _ => hlink.metadata (placed_of_owned h hidx) k hk
    others := by
      intro i hne hi s hs k hk
      have hother := hlink.held h hidx hi (s := s) (.inl hne)
      rw [view_of_ne hne] at hother
      exact hother hs k hk
    kept := hlink.kept
    data := by
      intro s hs hne k hk
      have hown := hlink.held h hidx hidx (s := s) (.inr hs)
      rw [view_self] at hown
      exact hown hne k hk
    table := fun k hk hk' => hlink.metadata (placed_of_owned h hidx) k (.inr ⟨hk, hk'⟩)
    size := hlink.size }

end Extends

structure Grows (c : Prop) (idx : Nat) (d : Mem) (v : Inode) (d' : Mem) (v' : Inode) : Prop
    extends Works c idx d v d' v' where
  data : ∀ s, ¬s.IsTable → slotBlock d v s ≠ 0 → ∀ k, k < 1024 →
    d' (1024 * slotBlock d v s + k) = d (1024 * slotBlock d v s + k)
  table : ∀ k, 11264 ≤ k → k < 55296 → d' k = d k
  wasted : ∀ b, LostBlock d (view d idx v) b → LostBlock d' (view d' idx v') b
  size : v'.size = v.size

section Grows

variable {c : Prop} {idx nb : Nat} {d d' d'' : Mem} {v v' v'' : Inode} {s₀ : Slot}

variable (h : Sound d (view d idx v))

include h

theorem Grows.refl : Grows c idx d v d v :=
  { Works.refl h with
    data := fun _ _ _ _ _ => rfl
    table := fun _ _ _ => rfl
    wasted := fun _ hb => hb
    size := rfl }

omit h in
theorem Grows.trans (h : Grows c idx d v d' v') (h' : Grows c idx d' v' d'' v'') : Grows c idx d v d'' v'' :=
  { h.toWorks.trans h'.toWorks with
    data := by
      intro s hs hne k hk
      have hkept := h.kept s hne
      have hlater := h'.data s hs (by rwa [hkept]) k hk
      rw [hkept] at hlater
      rw [hlater, h.data s hs hne k hk]
    table := fun k hk hk' => (h'.table k hk hk').trans (h.table k hk hk')
    wasted := fun b hb => h'.wasted b (h.wasted b hb)
    size := h'.size.trans h.size }

theorem Sound.placed (hidx : Live d idx) : Placed d v :=
  placed_of_owned h.owned hidx

theorem Grows.link (hidx : Live d idx) (hlink : Links d v d' v' s₀ nb) : Grows c idx d v d' v' := by
  have hextends := Extends.link h.owned hidx hlink
  have hrefs := hlink.refs h.owned hidx
  obtain ⟨howned, hlost⟩ := h.owned.grow hlink.not_used hrefs hlink.used
  exact
    { hextends with
      sound :=
        { owned := howned
          second_empty := by
            intro i hi a b
            have hi' := (hextends.live i).mp hi
            by_cases hne : i = idx
            · subst hne
              have hbefore := h.second_empty i hi' a b
              rw [view_self] at hbefore ⊢
              rw [hlink.slots, if_neg (hlink.not_second a b).symm, hbefore]
            · rw [hlink.slots_other h.owned hidx hne hi']
              exact h.second_empty i hi' a b }
      lost := fun _ b hb => hlost b hb
      sub := hlink.sub
      mode := hlink.mode
      wasted := by
        rintro b ⟨hb, hnone⟩
        refine ⟨(hlink.used b).mpr (.inl hb), fun k hk => ?_⟩
        rcases (hrefs k b).mp hk with hold | ⟨-, rfl⟩
        · exact hnone k hold
        · exact hlink.not_used hb }

theorem Grows.leak (hidx : Live d idx) (hclean : ¬c)
    (hlow : 54 ≤ nb) (hhigh : nb < 65536) (hfree : blockBit d nb = false)
    (hbits : ∀ b, b < 65536 → blockBit d' b = (decide (b = nb) || blockBit d b))
    (hrest : ∀ k, 1024 ≤ k → k < 3072 ∨ 11264 ≤ k → k / 1024 ≠ nb → d' k = d k) :
    Grows c idx d v d' v ∧ LostBlock d' (view d' idx v) nb ∧
      ∀ b, LostBlock d' (view d' idx v) b → b = nb ∨ LostBlock d (view d idx v) b := by
  have hnb : ¬Used d nb := by
    rintro ⟨-, -, hbit⟩
    rw [hfree] at hbit
    cases hbit
  have hlive : ∀ i, Live d' i ↔ Live d i := fun i => live_congr fun k hk hk' =>
    hrest k (by omega) (by omega) (by omega)
  have hview : ∀ i, i < 1032 → view d' idx v i = view d idx v i :=
    fun i hi => view_congr hi fun k hk hk' _ => hrest k (by omega) (by omega) (by omega)
  have hblock : ∀ i s, Live d i → slotBlock d (view d idx v i) s ≠ 0 → ∀ k, k < 1024 →
      d' (1024 * slotBlock d (view d idx v i) s + k) =
        d (1024 * slotBlock d (view d idx v i) s + k) := by
    intro i s hi hne k hk
    have hused := h.used hi hne
    have hge := hused.1
    refine hrest _ (by omega) (by omega) fun heq => hnb ?_
    rwa [show nb = slotBlock d (view d idx v i) s by omega]
  have hslots : ∀ i, Live d i → ∀ s,
      slotBlock d' (view d' idx v i) s = slotBlock d (view d idx v i) s := by
    intro i hi s
    rw [hview i hi.1]
    exact slotBlock_congr fun t _ ht k hk => hblock i t hi ht k hk
  have hrefs : ∀ k b, Refs d' (view d' idx v) k b → Refs d (view d idx v) k b := by
    rintro ⟨i, s⟩ b ⟨hi, heq, hb⟩
    have hi' := (hlive i).mp hi
    rw [hslots i hi' s] at heq
    exact ⟨hi', heq, hb⟩
  have hused : ∀ b, Used d b → Used d' b := by
    rintro b ⟨hb, hb', hbit⟩
    exact ⟨hb, hb', by rw [hbits b hb', hbit, Bool.or_true]⟩
  refine ⟨?_, ?_⟩
  · exact
      { sound :=
          { owned :=
              { used_of_ref := fun k b hk => hused b (h.owned.used_of_ref k b (hrefs k b hk))
                holder_unique := fun k k' b hk hk' =>
                  h.owned.holder_unique k k' b (hrefs k b hk) (hrefs k' b hk') }
            second_empty := by
              intro i hi a b
              have hi' := (hlive i).mp hi
              rw [hslots i hi']
              exact h.second_empty i hi' a b }
        lost := fun hc => absurd hc hclean
        metadata := fun k hk _ => hrest k (by omega) (by omega) (by omega)
        others := by
          intro i hne hi s hs k hk
          have hother := hblock i s hi
          rw [view_of_ne hne] at hother
          exact hother hs k hk
        sub := Inode.Sub.refl v
        kept := by
          intro s _
          have hown := hslots idx hidx s
          rwa [view_self, view_self] at hown
        mode := rfl
        data := by
          intro s _ hne k hk
          have hown := hblock idx s hidx
          rw [view_self] at hown
          exact hown hne k hk
        table := fun k hk hk' => hrest k (by omega) (.inr hk) (by omega)
        wasted := fun b hb => ⟨hused b hb.1, fun k hk => hb.2 k (hrefs k b hk)⟩
        size := rfl }
  · refine ⟨⟨⟨hlow, hhigh, by simp [hbits nb hhigh]⟩, fun k hk => hnb ?_⟩, ?_⟩
    · exact h.owned.used_of_ref k nb (hrefs k nb hk)
    · rintro b ⟨⟨hb, hb', hbit⟩, hnone⟩
      rw [hbits b hb', Bool.or_eq_true, decide_eq_true_eq] at hbit
      refine hbit.imp_right fun hold => ⟨⟨hb, hb', hold⟩, ?_⟩
      rintro ⟨i, s⟩ ⟨hi, heq, hne⟩
      refine hnone (i, s) ⟨(hlive i).mpr hi, ?_, hne⟩
      exact (hslots i hi s).trans heq

end Grows

def dataSlot (lblock : Nat) : Slot :=
  if h : lblock < 8 then .direct ⟨lblock, h⟩ else .entry (Fin.ofNat 512 (lblock - 8))

theorem dataSlot_not_table (lblock : Nat) : ¬(dataSlot lblock).IsTable := by
  unfold dataSlot
  split <;> exact id

theorem dataSlot_inj {l l' : Nat} (h : l < 520) (h' : l' < 520) (heq : dataSlot l = dataSlot l') : l = l' := by
  unfold dataSlot at heq
  split at heq <;> split at heq
  · simpa using heq
  · cases heq
  · cases heq
  · simp only [Slot.entry.injEq, Fin.ext_iff, Fin.val_ofNat] at heq
    omega

theorem toNat_eq_zero {x : UInt16} : x.toNat = 0 ↔ x = 0 := by
  rw [← UInt16.toNat_inj]
  rfl

theorem bmap_eq (h : lblock < 520) : jexfsBmap d v lblock = slotBlock d v (dataSlot lblock) := by
  unfold jexfsBmap dataSlot
  split
  · rfl
  · rw [if_pos (by omega)]
    simp only [slotBlock, toNat_eq_zero, Fin.val_ofNat, tableEntry_eq]
    rw [Nat.mod_eq_of_lt (show lblock - 8 < 512 by omega)]

theorem bmap_eq_zero (h : 520 ≤ lblock)
    (hempty : ∀ i j, slotBlock d v (.second i j) = 0) : jexfsBmap d v lblock = 0 := by
  unfold jexfsBmap
  rw [dif_neg (by omega), if_neg (by omega)]
  split
  · rfl
  · dsimp only
    split
    · rfl
    · rename_i hdouble hi1
      have hsecond := hempty (Fin.ofNat 512 ((lblock - 520) / 512)) (Fin.ofNat 512 ((lblock - 520) % 512))
      simp only [slotBlock, toNat_eq_zero, if_neg hdouble, Fin.val_ofNat] at hsecond
      rw [Nat.mod_eq_of_lt (show (lblock - 520) / 512 < 512 by omega), Nat.mod_mod] at hsecond
      simp only [tableEntry_eq]
      exact hsecond

end JexOs.JexFs
