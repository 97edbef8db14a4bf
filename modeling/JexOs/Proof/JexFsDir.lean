import JexOs.Proof.JexFsBmap
import JexOs.Proof.JexFsWrite

/-!
# Changing a directory

The scans of a directory stay on the blocks mapped for it. Growing a directory always loses a block, as the one
that is cleared is not the one that is linked.
-/

namespace JexOs.JexFs

open ByteMem Ownership Loop List Finset

def Coherent (d : Mem) (di : Inode) (c : Cursor) : Prop :=
  ∀ phys bo, c.block = some (phys, bo) →
    phys ≠ 0 ∧ ∃ lb, jexfsBmap d di lb = phys ∧ c.off = 1024 * lb + bo

section Scan

variable {d : Mem} {di : Inode} {name : Name} {c t : Cursor}

theorem coherent_of_none (h : c.block = none) : Coherent d di c := by
  intro phys bo hblock
  rw [h] at hblock
  cases hblock

variable {phys bo len off : Nat}

theorem Coherent.skip (h : Coherent d di c) (hblock : c.block = some (phys, bo)) :
    Coherent d di (c.skip d phys bo) := by
  intro phys' bo' hblock'
  obtain ⟨hne, lb, hmap, hoff⟩ := h phys bo hblock
  obtain ⟨rfl, rfl⟩ := hblock'
  refine ⟨hne, lb, hmap, ?_⟩
  simp only [Cursor.skip]
  omega

theorem coherent_enter (hne : jexfsBmap d di (c.off / 1024) ≠ 0) :
    Coherent d di { c with block := some (jexfsBmap d di (c.off / 1024), c.off % 1024) } := by
  intro phys bo hblock
  obtain ⟨rfl, rfl⟩ := hblock
  exact ⟨hne, _, rfl, by simp only; omega⟩

theorem searchBody_coherent (h : Coherent d di c)
    (hbody : searchBody d di name c = .ok (.again t)) : Coherent d di t := by
  unfold searchBody at hbody
  split at hbody
  · split at hbody
    · dsimp only at hbody
      split at hbody
      · cases hbody
      · rename_i hne
        cases hbody
        exact coherent_enter hne
    · cases hbody
  · rename_i phys bo hblock
    split at hbody
    · dsimp only at hbody
      split at hbody
      · cases hbody
      · rw [bind_eq_ok] at hbody
        obtain ⟨b, -, hbody⟩ := hbody
        split at hbody
        · cases hbody
        · cases hbody
          exact h.skip hblock
    · cases hbody
      exact coherent_of_none rfl

theorem slotBody_coherent (h : Coherent d di c) (hbody : slotBody d di len c = .ok (.again t)) :
    Coherent d di t := by
  unfold slotBody at hbody
  split at hbody
  · rename_i hblock
    split at hbody
    · dsimp only at hbody
      split at hbody
      · cases hbody
        exact coherent_of_none hblock
      · rename_i hne
        cases hbody
        exact coherent_enter fun h0 => hne (.inr h0)
    · cases hbody
  · rename_i phys bo hblock
    split at hbody
    · dsimp only at hbody
      split at hbody
      · cases hbody
      · cases hbody
        exact h.skip hblock
    · cases hbody
      exact coherent_of_none rfl

theorem sameBytes_true {buf : Mem} {pos : Nat} (h : sameBytes buf pos name = .ok true) :
    (name ≠ [] → pos + name.length ≤ 1024) ∧ ∀ k, (hk : k < name.length) → buf (pos + k) = name[k] := by
  induction name generalizing pos with
  | nil => exact ⟨fun hne => absurd rfl hne, fun k hk => absurd hk (by simp)⟩
  | cons c cs ih =>
    unfold sameBytes at h
    split at h
    · cases h
    · split at h
      · rename_i hpos heq
        obtain ⟨hbound, hbytes⟩ := ih h
        refine ⟨fun _ => ?_, fun k hk => ?_⟩
        · cases cs with
          | nil =>
            simp only [length_cons, length_nil]
            omega
          | cons c' cs' =>
            have := hbound (by simp)
            simp only [length_cons] at this ⊢
            omega
        · cases k with
          | zero => exact heq
          | succ k =>
            have := hbytes k (by simpa using hk)
            rw [show pos + (k + 1) = pos + 1 + k by omega, this]
            rfl
      · cases h

theorem nameLen_le (name : Name) : nameLen name ≤ name.length := Nat.mod_le _ _

structure Found (d : Mem) (di : Inode) (name : Name) (phys bo : Nat) : Prop where
  mapped : phys ≠ 0 ∧ ∃ lb, jexfsBmap d di lb = phys
  inside : bo + 5 + nameLen name ≤ 1024
  ino : load16 d (1024 * phys + bo) ≠ 0
  len : load16 d (1024 * phys + bo + 2) = nameLen name
  bytes : ∀ k, k < nameLen name → d (1024 * phys + bo + 5 + k) = name.getD k 0

theorem entryMatches_found (hbo : bo + 5 ≤ 1024) (hmapped : phys ≠ 0 ∧ ∃ lb, jexfsBmap d di lb = phys)
    (h : entryMatches (readBlock d phys) bo name = .ok true) : Found d di name phys bo := by
  unfold entryMatches at h
  split at h
  · rename_i hentry
    obtain ⟨hbound, hbytes⟩ := sameBytes_true h
    have hle := nameLen_le name
    have hlength : (name.take (nameLen name)).length = nameLen name := by simp [hle]
    refine
      { mapped := hmapped
        inside := ?_
        ino := hentry.1
        len := hentry.2
        bytes := ?_ }
    · by_cases h0 : nameLen name = 0
      · omega
      · have hpos := hbound (fun hnil => h0 (by rw [← hlength, hnil]; rfl))
        omega
    · intro k hk
      have hbyte := hbytes k (by omega)
      rw [getElem_take] at hbyte
      rw [getD_eq_getElem _ _ (by omega), ← hbyte]
      congr 1
      omega
  · cases h

theorem searchBody_found (h : Coherent d di c)
    (hbody : searchBody d di name c = .ok (.leave (some (phys, bo)))) :
    c.block = some (phys, bo) ∧ c.off < di.size.toNat ∧ Found d di name phys bo := by
  unfold searchBody at hbody
  split at hbody
  · split at hbody
    · dsimp only at hbody
      split at hbody
      · cases hbody
      · cases hbody
    · cases hbody
  · rename_i phys' bo' hblock
    split at hbody
    · rename_i hin
      dsimp only at hbody
      split at hbody
      · cases hbody
      · rw [bind_eq_ok] at hbody
        obtain ⟨b, hmatch, hbody⟩ := hbody
        split at hbody
        · rename_i htrue
          cases hbody
          obtain ⟨hne, lb, hmap, -⟩ := h _ _ hblock
          rw [htrue] at hmatch
          exact ⟨hblock, hin.2, entryMatches_found hin.1 ⟨hne, lb, hmap⟩ hmatch⟩
        · cases hbody
    · cases hbody

theorem searchDir_found (h : searchDir d di name = .ok (some (phys, bo))) : Found d di name phys bo := by
  obtain ⟨c, hc, hleave⟩ :=
    run_invariant (fun c t hc hbody => searchBody_coherent hc hbody) (coherent_of_none rfl) h
  exact (searchBody_found hc hleave).2.2

theorem slotBody_found (h : Coherent d di c) (hbody : slotBody d di len c = .ok (.leave (some off))) :
    c.off = off ∧ off < di.size.toNat ∧ ∃ phys bo, c.block = some (phys, bo) ∧ phys ≠ 0 ∧
      bo = off % 1024 ∧ jexfsBmap d di (off / 1024) = phys ∧ bo + 5 ≤ 1024 ∧ load16 d (1024 * phys + bo) = 0 ∧
      (load16 d (1024 * phys + bo + 2) = 0 ∨ len ≤ load16 d (1024 * phys + bo + 2)) := by
  unfold slotBody at hbody
  split at hbody
  · split at hbody
    · dsimp only at hbody
      split at hbody
      · cases hbody
      · cases hbody
    · cases hbody
  · rename_i phys bo hblock
    split at hbody
    · rename_i hin
      dsimp only at hbody
      split at hbody
      · rename_i hslot
        cases hbody
        obtain ⟨hne, lb, hmap, hoff⟩ := h _ _ hblock
        have hdiv : c.off / 1024 = lb := by omega
        refine ⟨rfl, hin.2, phys, bo, hblock, hne, by omega, hdiv ▸ hmap, hin.1, hslot.1, hslot.2⟩
      · cases hbody
    · cases hbody

theorem findSlot_found (h : findSlot d di len = .ok (some off)) :
    off < di.size.toNat ∧ jexfsBmap d di (off / 1024) ≠ 0 ∧ off % 1024 + 5 ≤ 1024 := by
  obtain ⟨c, hc, hleave⟩ :=
    run_invariant (fun c t hc hbody => slotBody_coherent hc hbody) (coherent_of_none rfl) h
  obtain ⟨-, hlt, phys, bo, -, hne, rfl, hmap, hbo, -⟩ := slotBody_found hc hleave
  exact ⟨hlt, hmap ▸ hne, hbo⟩

structure DirAgree (d d' : Mem) (di : Inode) : Prop where
  bmap : ∀ lb, jexfsBmap d' di lb = jexfsBmap d di lb
  contents : ∀ lb, jexfsBmap d di lb ≠ 0 → ∀ k, k < 1024 →
    d' (1024 * jexfsBmap d di lb + k) = d (1024 * jexfsBmap d di lb + k)

variable {d' : Mem}

variable (h : DirAgree d d' di)

include h

theorem DirAgree.byte (hc : Coherent d di c) (hblock : c.block = some (phys, bo)) {k : Nat} (hk : k < 1024) :
    readBlock d' phys k = readBlock d phys k := by
  obtain ⟨hne, lb, rfl, -⟩ := hc phys bo hblock
  exact h.contents lb hne k hk

theorem DirAgree.load16_eq (hc : Coherent d di c) (hblock : c.block = some (phys, bo)) {a : Nat}
    (ha : a + 2 ≤ 1024) :
    load16 (readBlock d' phys) a = load16 (readBlock d phys) a :=
  load16_congr fun _ _ hk => h.byte hc hblock (by omega)

omit h in
theorem sameBytes_congr {buf buf' : Mem} (h : ∀ k, k < 1024 → buf' k = buf k) (pos : Nat)
    (name : Name) : sameBytes buf' pos name = sameBytes buf pos name := by
  induction name generalizing pos with
  | nil => rfl
  | cons c cs ih =>
    unfold sameBytes
    split
    · rfl
    · rw [h pos (by omega), ih]

theorem slotBody_congr (hc : Coherent d di c) : slotBody d' di len c = slotBody d di len c := by
  unfold slotBody
  cases hblock : c.block with
  | none => simp only [h.bmap]
  | some p =>
    obtain ⟨phys, bo⟩ := p
    by_cases hin : bo + 5 ≤ 1024 ∧ c.off < di.size.toNat
    · have hino := h.load16_eq hc hblock (a := bo) (by omega)
      have hlen := h.load16_eq hc hblock (a := bo + 2) (by omega)
      simp only [if_pos hin, hino, hlen, Cursor.skip]
    · simp only [if_neg hin]

theorem findSlot_congr (len : Nat) : findSlot d' di len = findSlot d di len :=
  run_congr fun _ hreach => slotBody_congr h
    (reach_invariant (fun _ _ hc hbody => slotBody_coherent hc hbody) hreach (coherent_of_none rfl))

theorem searchBody_congr (hc : Coherent d di c) : searchBody d' di name c = searchBody d di name c := by
  unfold searchBody
  cases hblock : c.block with
  | none => simp only [h.bmap]
  | some p =>
    obtain ⟨phys, bo⟩ := p
    by_cases hin : bo + 5 ≤ 1024 ∧ c.off < di.size.toNat
    · have hino := h.load16_eq hc hblock (a := bo) (by omega)
      have hlen := h.load16_eq hc hblock (a := bo + 2) (by omega)
      have hname := sameBytes_congr (fun _ hk => h.byte hc hblock hk) (bo + 5) (name.take (nameLen name))
      simp only [if_pos hin, hino, hlen, hname, Cursor.skip, entryMatches]
    · simp only [if_neg hin]

theorem searchDir_congr : searchDir d' di name = searchDir d di name :=
  run_congr fun _ hreach => searchBody_congr h
    (reach_invariant (fun _ _ hc hbody => searchBody_coherent hc hbody) hreach (coherent_of_none rfl))

end Scan

section Enter

variable {total idx : Nat} {d d' : Mem} {v : Inode}

theorem Sound.second_empty_own (h : Sound d (view d idx v)) (hidx : Live d idx) (i j : Fin 512) :
    slotBlock d v (.second i j) = 0 := by
  have hempty := h.second_empty idx hidx i j
  rwa [view_self] at hempty

variable {lb n off ino : Nat} {c : Prop} {r : Ret Unit} {name : Name} {ft : UInt8} {di : Inode}

theorem Sound.mapped (h : Sound d (view d idx v)) (hidx : Live d idx) (hne : jexfsBmap d v lb ≠ 0) :
    lb < 520 ∧ jexfsBmap d v lb = slotBlock d v (dataSlot lb) ∧ Used d (jexfsBmap d v lb) ∧
      ∀ i s, Live d i → slotBlock d (view d idx v i) s = jexfsBmap d v lb → i = idx ∧ s = dataSlot lb := by
  have hlt : lb < 520 := by
    by_contra hge
    exact hne (bmap_eq_zero (by omega) (h.second_empty_own hidx))
  rw [bmap_eq hlt] at hne ⊢
  refine ⟨hlt, rfl, (h.placed hidx).used _ hne, fun i s hi heq => ?_⟩
  have hunique := h.unique hidx hi (dataSlot lb) s
  rw [view_self] at hunique
  exact hunique hne heq

theorem Sound.mapped_held (h : Sound d (view d idx v)) (hidx : Live d idx)
    (hne : jexfsBmap d v lb ≠ 0) {i : Nat} {s : Slot} (hi : Live d i)
    (heq : slotBlock d (view d idx v i) s = jexfsBmap d v lb) : i = idx ∧ ¬s.IsTable := by
  obtain ⟨-, -, -, hheld⟩ := h.mapped hidx hne
  obtain ⟨hi', rfl⟩ := hheld i s hi heq
  exact ⟨hi', dataSlot_not_table lb⟩

theorem Works.edit {a : Nat} (src : Mem) (h : Sound d (view d idx v))
    (hidx : Live d idx) (hne : jexfsBmap d v lb ≠ 0) (hlow : 1024 * jexfsBmap d v lb ≤ a)
    (hhigh : a + n ≤ 1024 * jexfsBmap d v lb + 1024) : Works c idx d v (blit d a n src) v := by
  obtain ⟨-, -, hused, -⟩ := h.mapped hidx hne
  refine Works.write h hidx hused.1 (fun k _ hk => ?_) fun i s hi heq => h.mapped_held hidx hne hi heq
  rcases lt_or_ge k a with hlt | hge
  · exact blit_of_lt hlt
  · exact blit_of_ge (by omega)

def stretch (di : Inode) (newEnd : Nat) : Inode :=
  if di.size.toNat < newEnd then { di with size := UInt32.ofNat newEnd } else di

def stretchDisk (d : Mem) (dirIno : Nat) (di : Inode) (newEnd : Nat) : Mem :=
  if di.size.toNat < newEnd then blit d (11264 + 42 * dirIno) 42 (stretch di newEnd).encode else d

section

variable (h : Sound d (view d idx di))

include h

theorem writeEntry_cases (hidx : Live d idx)
    (hrun : writeEntry (layout total) d idx di off ino name ft = .ok (r, d')) :
    (jexfsBmap d di (off / 1024) = 0 ∧ r = .error .eio ∧ d' = d) ∨
      (jexfsBmap d di (off / 1024) ≠ 0 ∧ r = .ok () ∧ off % 1024 + (5 + nameLen name) ≤ 1024 ∧
        d' = blit (stretchDisk d idx di ((off + (5 + nameLen name)) % 2 ^ 32))
          (1024 * jexfsBmap d di (off / 1024) + off % 1024) (5 + nameLen name) (dirent ino name ft)) := by
  unfold writeEntry at hrun
  dsimp only at hrun
  by_cases hmap : jexfsBmap d di (off / 1024) = 0
  · rw [if_pos hmap] at hrun
    cases hrun
    exact .inl ⟨hmap, rfl, rfl⟩
  rw [if_neg hmap] at hrun
  by_cases hin : 1024 < off % 1024 + (5 + nameLen name)
  · rw [if_pos hin] at hrun
    cases hrun
  rw [if_neg hin] at hrun
  have hge := (h.mapped hidx hmap).2.2.1.1
  have hblock : ∀ e : Mem, (∀ k, 55296 ≤ k → e k = d k) →
      writeBlock e (jexfsBmap d di (off / 1024))
        (blit (readBlock d (jexfsBmap d di (off / 1024))) (off % 1024) (5 + nameLen name)
          (dirent ino name ft)) =
      blit e (1024 * jexfsBmap d di (off / 1024) + off % 1024) (5 + nameLen name)
        (dirent ino name ft) := by
    intro e he
    have hread : readBlock d (jexfsBmap d di (off / 1024)) =
        readBlock e (jexfsBmap d di (off / 1024)) := by
      funext k
      exact (he _ (by omega)).symm
    rw [hread, writeBlock_blit (by omega)]
  refine .inr ⟨hmap, ?_⟩
  simp only [stretchDisk, stretch]
  have hlt := hidx.1
  split at hrun
  · rename_i hgrow
    simp only [bind_eq_ok] at hrun
    obtain ⟨e, hwrite, hret⟩ := hrun
    cases hret
    obtain ⟨-, rfl⟩ := writeInode_cases hidx.1 hwrite
    refine ⟨rfl, by omega, ?_⟩
    rw [if_pos hgrow, if_pos hgrow, hblock _ fun k hk => blit_of_ge (by omega)]
  · rename_i hgrow
    simp only [bind_eq_ok] at hrun
    obtain ⟨e, hwrite, hret⟩ := hrun
    cases hret
    cases hwrite
    refine ⟨rfl, by omega, ?_⟩
    rw [if_neg hgrow, hblock _ fun k _ => rfl]

theorem stretch_works (hidx : Live d idx) (hrec : inodeAt d idx = di) (n : Nat) :
    Works c idx d di (stretchDisk d idx di n) (stretch di n) ∧
    inodeAt (stretchDisk d idx di n) idx = stretch di n := by
  unfold stretchDisk stretch
  split
  · have hresized := Works.resize (c := c) h hidx (UInt32.ofNat n)
    exact ⟨hresized.trans (Works.commit hresized.sound hidx), inodeAt_blit_self d idx _⟩
  · exact ⟨Works.refl h, hrec⟩

theorem writeEntry_works (hidx : Live d idx) (hrec : inodeAt d idx = di)
    (hrun : writeEntry (layout total) d idx di off ino name ft = .ok (r, d')) :
    Works c idx d di d' (inodeAt d' idx) := by
  rcases writeEntry_cases h hidx hrun with ⟨-, -, rfl⟩ | ⟨hmap, -, hin, rfl⟩
  · rw [hrec]
    exact Works.refl h
  · obtain ⟨hworks, hrec'⟩ := stretch_works (c := c) h hidx hrec ((off + (5 + nameLen name)) % 2 ^ 32)
    have hidx' := (hworks.live idx).mpr hidx
    generalize stretchDisk d idx di ((off + (5 + nameLen name)) % 2 ^ 32) = e at *
    have hlt := hidx.1
    have hsame : jexfsBmap e (stretch di ((off + (5 + nameLen name)) % 2 ^ 32)) (off / 1024) =
        jexfsBmap d di (off / 1024) := by
      obtain ⟨hlb, hslot, -, -⟩ := h.mapped hidx hmap
      rw [bmap_eq hlb, hworks.kept _ (hslot ▸ hmap), hslot]
    have hge := (h.mapped hidx hmap).2.2.1.1
    have hedit := Works.edit (c := c) (a := 1024 * jexfsBmap d di (off / 1024) + off % 1024)
      (n := 5 + nameLen name) (dirent ino name ft) hworks.sound hidx' (hsame.trans_ne hmap)
      (by rw [hsame]; omega) (by rw [hsame]; omega)
    have hrecord : inodeAt (blit e (1024 * jexfsBmap d di (off / 1024) + off % 1024)
        (5 + nameLen name) (dirent ino name ft)) idx =
        stretch di ((off + (5 + nameLen name)) % 2 ^ 32) := by
      rw [← hrec']
      exact inodeAt_congr fun k hk hk' => blit_of_lt (by omega)
    rw [hrecord]
    exact hworks.trans hedit

omit h in
theorem firstHole_spec (d : Mem) (di : Inode) (fuel lb : Nat) :
    lb ≤ firstHole d di fuel lb ∧ firstHole d di fuel lb ≤ lb + fuel ∧
      (∀ l, lb ≤ l → l < firstHole d di fuel lb → jexfsBmap d di l ≠ 0) ∧
      (firstHole d di fuel lb < lb + fuel → jexfsBmap d di (firstHole d di fuel lb) = 0) := by
  induction fuel generalizing lb with
  | zero => exact ⟨le_rfl, le_rfl, fun l hl hl' => absurd hl (by simpa [firstHole] using hl'),
      fun hlt => absurd hlt (by simp [firstHole])⟩
  | succ fuel ih =>
    unfold firstHole
    split
    · rename_i h0
      exact ⟨le_rfl, by omega, fun l hl hl' => absurd hl (by omega), fun _ => h0⟩
    · rename_i hne
      obtain ⟨hlow, hhigh, hmapped, hhole⟩ := ih (lb + 1)
      refine ⟨by omega, by omega, fun l hl hl' => ?_, fun hlt => hhole (by omega)⟩
      rcases Nat.eq_or_lt_of_le hl with rfl | hgt
      · exact hne
      · exact hmapped l hgt hl'

omit h in
theorem firstHole_least (h : Sound d (view d idx v)) (hidx : Live d idx) :
    firstHole d v 262664 0 ≤ 520 ∧ jexfsBmap d v (firstHole d v 262664 0) = 0 ∧
      ∀ l, l < firstHole d v 262664 0 → jexfsBmap d v l ≠ 0 := by
  obtain ⟨-, -, hmapped, hhole⟩ := firstHole_spec d v 262664 0
  have hle : firstHole d v 262664 0 ≤ 520 := by
    by_contra hgt
    exact hmapped 520 (by omega) (by omega) (bmap_eq_zero le_rfl (h.second_empty_own hidx))
  exact ⟨hle, hhole (by omega), fun l hl => hmapped l (by omega) hl⟩

theorem growDir_failed {e : Errno} (hidx : Live d idx)
    (hrun : growDir (layout total) d idx di = .ok (.error e, d')) :
    Works (freeCount total d < 2) idx d di d' di ∧ inodeAt d' idx = inodeAt d idx := by
  unfold growDir at hrun
  cases halloc : jexfsAllocBlock (layout total) d with
  | none =>
    rw [halloc] at hrun
    cases hrun
    exact ⟨Works.refl h, rfl⟩
  | some p =>
    obtain ⟨nb, d₁⟩ := p
    obtain ⟨hfresh, rfl, hcount⟩ := allocBlock_fresh halloc
    have hlow := hfresh.low
    obtain ⟨hleak, hlost, hback⟩ := Grows.leak (c := False) h hidx id hfresh.low hfresh.high hfresh.free
      (bits_of_same fun _ _ _ => rfl) fun k _ hk _ => hfresh.set_of_outside hk
    have hidx₁ := (hleak.live idx).mpr hidx
    rw [halloc] at hrun
    dsimp only at hrun
    split at hrun
    · rename_i e' di' d₂ hmap
      cases hrun
      have hmapped := bmapAlloc_mapped hleak.sound hidx₁ hmap
      have hworks := (hmapped.works (c := False) (fun hf => hf.elim)).forget hidx₁
      have hlost₂ : LostBlock d₂ (view d₂ idx di) nb := by
        have hwasted := hmapped.grows.wasted nb hlost
        refine ⟨hwasted.1, ?_⟩
        rintro ⟨i, s⟩ ⟨hi, heq, hb⟩
        refine hwasted.2 (i, s) ⟨hi, ?_, hb⟩
        by_cases hne : i = idx
        · subst hne
          rw [view_self] at heq ⊢
          rw [hmapped.grows.sub.slotBlock_eq (d := d₂) (by rwa [heq]), heq]
        · rw [view_of_ne hne] at heq ⊢
          exact heq
      obtain ⟨hfree, hgone⟩ := Works.free (c := True) hworks.sound ((hmapped.grows.live idx).mpr hidx₁) hlost₂
      rw [freeBlock_eq (by omega)]
      have hlt := hidx.1
      have hall := ((hleak.toWorks.weaken fun hf : False ∧ di' = di => hf.1.elim).trans
        hworks).trans (hfree.weaken fun _ => trivial)
      refine ⟨{ hall with lost := fun hfew b hb => ?_ }, ?_⟩
      · -- with one free block the second one cannot be taken
        obtain ⟨-, rfl, -⟩ := hmapped.full (by omega)
        exact (hback b (hfree.lost trivial b hb)).resolve_left (hgone b hb)
      · refine inodeAt_congr fun k hk hk' => ?_
        rw [clear_of_ne (by have := hfresh.high; omega),
          hmapped.grows.table k (by omega) (by omega), hfresh.set_of_outside (.inr (by omega))]
    · simp only [bind_eq_ok] at hrun
      obtain ⟨e', -, hret⟩ := hrun
      cases hret

theorem growDir_same {e : Errno} (hidx : Live d idx) (hhole : jexfsBmap d di 519 = 0)
    (hrun : growDir (layout total) d idx di = .ok (.error e, d')) {k : Nat} (hk : 11264 ≤ k)
    (hused : k < 55296 ∨ Used d (k / 1024)) : d' k = d k := by
  unfold growDir at hrun
  cases halloc : jexfsAllocBlock (layout total) d with
  | none =>
    rw [halloc] at hrun
    cases hrun
    rfl
  | some p =>
    obtain ⟨nb, d₁⟩ := p
    obtain ⟨hfresh, rfl, -⟩ := allocBlock_fresh halloc
    have hsame : ∀ s, slotBlock (Bitmap.set d (24576 + nb)) di s = slotBlock d di s :=
      hfresh.slotBlock_eq (h.placed hidx) fun k hk _ => hfresh.set_of_outside (.inr hk)
    have hlt : firstHole (Bitmap.set d (24576 + nb)) di 262664 0 < 520 := by
      obtain ⟨-, -, hmapped, -⟩ := firstHole_spec (Bitmap.set d (24576 + nb)) di 262664 0
      by_contra hge
      refine hmapped 519 (by omega) (by omega) ?_
      rw [bmap_congr (fun l => hsame _) 519, hhole]
    rw [halloc] at hrun
    dsimp only at hrun
    split at hrun
    · rename_i e' di' d₂ hmap
      cases hrun
      have hlow := hfresh.low
      have hhigh := hfresh.high
      rw [freeBlock_eq (by omega), clear_of_ne (by omega)]
      have hsame₂ := bmapAlloc_failed hlt hmap hk (hused.imp id fun ⟨hb, hb', hbit⟩ => by
        refine ⟨hb, hb', ?_⟩
        rw [blockBit_set, hbit, Bool.or_true])
      rw [hsame₂, hfresh.set_of_outside (.inr hk)]
    · simp only [bind_eq_ok] at hrun
      obtain ⟨e', -, hret⟩ := hrun
      cases hret

omit h in
theorem stretch_eq (di : Inode) (n : Nat) : ∃ m, stretch di n = { di with size := m } := by
  unfold stretch
  split
  · exact ⟨_, rfl⟩
  · exact ⟨di.size, rfl⟩

omit h in
theorem toNat_stretch (di : Inode) (hn : n < 2 ^ 32) : (stretch di n).size.toNat = max di.size.toNat n := by
  unfold stretch
  split
  · simp only [UInt32.toNat_ofNat']
    omega
  · omega

structure Grown (total idx : Nat) (d : Mem) (di : Inode) (lb : Nat) (di' : Inode) (d' : Mem) :
    Prop where
  works : Works False idx d di d' di'
  record : inodeAt d' idx = di'
  hole : lb ≤ 520 ∧ jexfsBmap d di lb = 0 ∧ ∀ l, l < lb → jexfsBmap d di l ≠ 0
  sized : di'.size.toNat = max di.size.toNat ((lb + 1) * 1024)
  linked : lb < 520 → jexfsBmap d' di' lb ≠ 0
  contents : ∀ l, l < lb → ∀ k, k < 1024 →
    d' (1024 * jexfsBmap d di l + k) = d (1024 * jexfsBmap d di l + k)
  others : lb < 520 → ∀ l, l ≠ lb → jexfsBmap d' di' l = jexfsBmap d di l
  taken : lb < 520 → jexfsBmap d' di' lb ∈ freeBlocksLeft total d ∧
    freeBefore total d (jexfsBmap d' di' lb) = (if 8 ≤ lb ∧ di.indirectBlock = 0 then 2 else 1)
  uncleared : lb < 520 → ∀ k, k < 1024 →
    d' (1024 * jexfsBmap d' di' lb + k) = d (1024 * jexfsBmap d' di' lb + k)

theorem growDir_ok {di' : Inode} (hidx : Live d idx)
    (hrun : growDir (layout total) d idx di = .ok (.ok (off, di'), d')) :
    2 ≤ freeCount total d ∧ ∃ lb, off = lb * 1024 ∧ Grown total idx d di lb di' d' := by
  unfold growDir at hrun
  obtain ⟨⟨nb, d₁⟩, halloc⟩ : ∃ p, jexfsAllocBlock (layout total) d = some p :=
    Option.ne_none_iff_exists'.mp fun halloc => by
      rw [halloc] at hrun
      cases hrun
  obtain ⟨hfresh, rfl, hcount⟩ := allocBlock_fresh halloc
  have hlow := hfresh.low
  obtain ⟨hleak, hlost, -⟩ := Grows.leak (c := False) h hidx id hfresh.low hfresh.high
    hfresh.free (bits_of_same fun _ _ _ => rfl) fun k _ hk _ => hfresh.set_of_outside hk
  have hidx₁ := (hleak.live idx).mpr hidx
  obtain ⟨hle, hhole, hmapped⟩ := firstHole_least hleak.sound hidx₁
  rw [halloc] at hrun
  dsimp only at hrun
  generalize firstHole (Bitmap.set d (24576 + nb)) di 262664 0 = lb at *
  split at hrun
  · cases hrun
  · rename_i b di₂ d₂ hmap
    have hgrown := bmapAlloc_mapped hleak.sound hidx₁ hmap
    have hidx₂ := (hgrown.grows.live idx).mpr hidx₁
    simp only [bind_eq_ok] at hrun
    obtain ⟨e, hwrite, hret⟩ := hrun
    change jexfsWriteInode _ _ _ (stretch di₂ ((lb + 1) * 1024)) = _ at hwrite
    obtain ⟨-, rfl⟩ := writeInode_cases hidx.1 hwrite
    cases hret
    change 2 ≤ freeCount total d ∧ ∃ l, lb * 1024 = l * 1024 ∧
      Grown total idx d di l (stretch di₂ ((lb + 1) * 1024)) _
    have hsize := toNat_stretch di₂ (n := (lb + 1) * 1024) (by omega)
    rw [hgrown.grows.size] at hsize
    obtain ⟨m, hm⟩ := stretch_eq di₂ ((lb + 1) * 1024)
    rw [hm] at hsize ⊢
    have hresized := Works.resize (c := False) hgrown.grows.sound hidx₂ m
    have hcommit := Works.commit (c := False) hresized.sound hidx₂
    have hlt := hidx.1
    have hidx₃ := (hcommit.live idx).mpr hidx₂
    have hcommitted := fun s => slots_commit hresized.sound.owned hlt hidx₂ s
    -- the block that is cleared is held by nobody
    have hheld : ∀ i s, Live (blit d₂ (11264 + 42 * idx) 42 (Inode.encode { di₂ with size := m })) i →
        slotBlock (blit d₂ (11264 + 42 * idx) 42 (Inode.encode { di₂ with size := m }))
          (view (blit d₂ (11264 + 42 * idx) 42 (Inode.encode { di₂ with size := m })) idx
            { di₂ with size := m } i) s = nb → i = idx ∧ ¬s.IsTable := by
      intro i s hi heq
      have hi₂ := (hcommit.live i).mp hi
      rw [slots_commit hresized.sound.owned hlt hi₂, slots_resize] at heq
      exact absurd ⟨hi₂, heq, by omega⟩ ((hgrown.grows.wasted nb hlost).2 (i, s))
    have hchange : ∀ k, 1024 ≤ k → k / 1024 ≠ nb →
        writeBlock (blit d₂ (11264 + 42 * idx) 42 (Inode.encode { di₂ with size := m })) nb
          zeroBlock k = blit d₂ (11264 + 42 * idx) 42 (Inode.encode { di₂ with size := m }) k :=
      fun k _ hk => writeBlock_of_ne hk
    have hclear := Works.write (c := False) (b := nb) hcommit.sound hidx₃ hlow hchange hheld
    have hslots : ∀ s, slotBlock (writeBlock (blit d₂ (11264 + 42 * idx) 42
        (Inode.encode { di₂ with size := m })) nb zeroBlock) { di₂ with size := m } s =
          slotBlock d₂ di₂ s := by
      intro s
      have hwritten := slots_write hlow hchange hheld hidx₃ s
      rw [hcommitted, slots_resize, view_self, view_self] at hwritten
      exact hwritten
    have hall := ((hleak.toWorks.trans (hgrown.works (c := False) fun hf => hf.elim)).trans
      hresized).trans (hcommit.trans hclear)
    -- slots of `di` show the same blocks before and after the first block is taken
    have hsame : ∀ s, slotBlock (Bitmap.set d (24576 + nb)) di s = slotBlock d di s :=
      hfresh.slotBlock_eq (h.placed hidx) fun k hk _ => hfresh.set_of_outside (.inr hk)
    have hbmap : ∀ l, l ≤ 520 → jexfsBmap (Bitmap.set d (24576 + nb)) di l = jexfsBmap d di l := by
      intro l hl
      rcases Nat.eq_or_lt_of_le hl with rfl | hl'
      · rw [bmap_eq_zero le_rfl (hleak.sound.second_empty_own hidx₁),
          bmap_eq_zero le_rfl (h.second_empty_own hidx)]
      · rw [bmap_eq hl', bmap_eq hl', hsame]
    have hplaced := hleak.sound.placed hidx₁
    have hmaps : ∀ l, jexfsBmap (writeBlock (blit d₂ (11264 + 42 * idx) 42
        (Inode.encode { di₂ with size := m })) nb zeroBlock) { di₂ with size := m } l =
          jexfsBmap d₂ di₂ l := fun l => bmap_congr (fun l => hslots _) l
    have hlinked : lb < 520 → jexfsBmap d₂ di₂ lb = b := fun hlb => by
      rw [bmap_eq hlb]
      exact ((bmapAlloc_allocates hplaced hlb hmap).1.slots hlb).1
    refine ⟨?_, lb, rfl, ?_⟩
    · by_contra hfew
      obtain ⟨-, -, hfail⟩ := hgrown.full (by omega)
      obtain ⟨e, he⟩ := hfail hhole
      cases he
    · exact
        { works := hall
          record := by
            refine Eq.trans (inodeAt_congr fun k hk hk' => ?_) (inodeAt_blit_self d₂ idx _)
            exact writeBlock_of_ne (by omega)
          hole := by
            rw [← hbmap lb hle]
            refine ⟨hle, hhole, fun l hl => ?_⟩
            rw [← hbmap l (by omega)]
            exact hmapped l hl
          sized := hsize
          linked := by
            intro hlb
            obtain ⟨hge, -, -, hslot⟩ := hgrown.found b rfl
            have hb := hslot hlb
            have hkept := (hresized.trans (hcommit.trans hclear)).kept (dataSlot lb) (by omega)
            rw [bmap_eq hlb, hkept, hb]
            omega
          contents := by
            intro l hl k hk
            have hl' : l < 520 := by omega
            have hne := hmapped l hl
            rw [bmap_eq hl'] at hne
            have hdata := hgrown.grows.data (dataSlot l) (dataSlot_not_table l) hne k hk
            have hused := (hleak.sound.placed hidx₁).used _ hne
            rw [hsame] at hdata hused hne
            rw [bmap_eq hl']
            have hge := hused.1
            have hnb : slotBlock d di (dataSlot l) ≠ nb := by
              intro heq
              exact hfresh.not_used (heq ▸ (h.placed hidx).used _ hne)
            rw [writeBlock_of_ne (by omega), blit_record_of_outside (.inr (by omega)), hdata,
              hfresh.set_of_outside (.inr (by omega))]
          others := by
            intro hlb l hl
            rw [hmaps, (bmapAlloc_allocates hplaced hlb hmap).1.bmap_other hlb hl]
            exact bmap_congr (fun l => hsame _) l
          taken := by
            intro hlb
            obtain ⟨hmem, hbefore⟩ := bmapAlloc_least hlb hhole hmap
            have hcount := (freeBefore_alloc halloc).2 b hmem
            rw [(allocBlock_erase halloc).2, mem_erase] at hmem
            rw [hmaps, hlinked hlb, hcount, hbefore]
            refine ⟨hmem.2, ?_⟩
            split <;> rfl
          uncleared := by
            intro hlb k hk
            obtain ⟨hmem, -⟩ := bmapAlloc_least hlb hhole hmap
            rw [(allocBlock_erase halloc).2, mem_erase] at hmem
            have hge : 54 ≤ b := (hgrown.found b rfl).1
            rw [hmaps, hlinked hlb, writeBlock_of_ne (by omega),
              blit_record_of_outside (.inr (by omega)),
              (bmapAlloc_allocates hplaced hlb hmap).2 _ (.inr (by omega)),
              hfresh.set_of_outside (.inr (by omega))] }

end

def AddClean (total : Nat) (d : Mem) (dirIno : Nat) (name : Name) : Prop :=
  findSlot d (inodeAt d dirIno) (nameLen name) ≠ .ok none ∨ freeCount total d < 2

theorem addDirent_works {dirIno : Nat} (h : Sound d (inodeAt d)) (hdir : Live d dirIno)
    (hrun : jexfsAddDirent (layout total) d dirIno ino name ft = .ok (r, d')) :
    Works (AddClean total d dirIno name) dirIno d (inodeAt d dirIno) d' (inodeAt d' dirIno) := by
  have hview : Sound d (view d dirIno (inodeAt d dirIno)) := by rwa [view_inodeAt]
  simp only [jexfsAddDirent, bind_eq_ok] at hrun
  obtain ⟨di, hread, hrun⟩ := hrun
  rcases readInode_cases hread with ⟨hge, -⟩ | ⟨-, -, rfl⟩
  · exact absurd hdir.1 (by omega)
  split at hrun
  · cases hrun
    exact Works.refl hview
  · simp only [bind_eq_ok] at hrun
    obtain ⟨slot, hslot, hrun⟩ := hrun
    cases slot with
    | some off => exact writeEntry_works hview hdir rfl hrun
    | none =>
      simp only [bind_eq_ok] at hrun
      obtain ⟨⟨g, d₁⟩, hgrow, hrun⟩ := hrun
      -- growing is clean only where it fails
      have hfew : AddClean total d dirIno name → freeCount total d < 2 :=
        fun hclean => hclean.resolve_left fun hne => hne hslot
      cases g with
      | error e =>
        cases hrun
        obtain ⟨hworks, hrec⟩ := growDir_failed hview hdir hgrow
        rw [hrec]
        exact hworks.weaken hfew
      | ok p =>
        obtain ⟨off, di⟩ := p
        obtain ⟨htwo, lb, rfl, hgrown⟩ := growDir_ok hview hdir hgrow
        have hdir₁ := (hgrown.works.live dirIno).mpr hdir
        have hentry := writeEntry_works (c := False) hgrown.works.sound hdir₁ hgrown.record hrun
        exact (hgrown.works.trans hentry).weaken fun hclean => absurd (hfew hclean) (by omega)

end Enter

end JexOs.JexFs
