import JexOs.Proof.TccOutput

/-!
# What is emitted stays

Behind the prologue the compiler writes a byte of the output a second time only where a jump forward is open.
-/

namespace JexOs.Tcc

open X86 (Byte Word wordBytes byteOf)
open List

def BytesAt (out : List Byte) (p : Nat) (bytes : List Byte) : Prop :=
  ∀ k, k < bytes.length → out[p + k]? = bytes[k]?

section BytesAt

variable {out out' bytes bytes' : List Byte} {p q : Nat} {v : Word}

theorem BytesAt.bound (h : BytesAt out p bytes) {k : Nat} (hk : k < bytes.length) : p + k < out.length := by
  have hsome := h k hk
  rw [getElem?_eq_getElem hk] at hsome
  exact (List.getElem?_eq_some_iff.mp hsome).1

theorem BytesAt.congr (h : BytesAt out p bytes)
    (hsame : ∀ k, k < bytes.length → out'[p + k]? = out[p + k]?) : BytesAt out' p bytes :=
  fun k hk => (hsame k hk).trans (h k hk)

theorem BytesAt.append (h : BytesAt out p bytes) (tail : List Byte) : BytesAt (out ++ tail) p bytes :=
  h.congr fun _ hk => getElem?_append_left (h.bound hk)

theorem bytesAt_end (out bytes : List Byte) : BytesAt (out ++ bytes) out.length bytes := by
  intro k hk
  rw [getElem?_append_right (Nat.le_add_right _ _), Nat.add_sub_cancel_left]

theorem BytesAt.behind (h : BytesAt out p bytes) (front : List Byte) :
    BytesAt (front ++ out) (front.length + p) bytes := by
  intro k hk
  rw [Nat.add_assoc, getElem?_append_right (Nat.le_add_right _ _), Nat.add_sub_cancel_left]
  exact h k hk

theorem BytesAt.left (h : BytesAt out p (bytes ++ bytes')) : BytesAt out p bytes := by
  intro k hk
  rw [h k (by rw [length_append]; omega), getElem?_append_left hk]

theorem BytesAt.right (h : BytesAt out p (bytes ++ bytes')) : BytesAt out (p + bytes.length) bytes' := by
  intro k hk
  rw [Nat.add_assoc, h _ (by rw [length_append]; omega),
    getElem?_append_right (Nat.le_add_right _ _), Nat.add_sub_cancel_left]

theorem BytesAt.join (h : BytesAt out p bytes) (h' : BytesAt out (p + bytes.length) bytes') :
    BytesAt out p (bytes ++ bytes') := by
  intro k hk
  by_cases hlt : k < bytes.length
  · rw [getElem?_append_left hlt]
    exact h k hlt
  · have hin : k - bytes.length < bytes'.length := by
      rw [length_append] at hk
      omega
    rw [getElem?_append_right (Nat.le_of_not_lt hlt), ← h' _ hin]
    congr 1
    omega

theorem le_length_patch32 : out.length ≤ (patch32 out p v).length := by
  have hword : (wordBytes v).length = 4 := rfl
  unfold patch32
  rw [length_append, length_append, length_take, length_drop]
  omega

theorem patch32_outside (hq : q < out.length) (houtside : q < p ∨ p + 4 ≤ q) :
    (patch32 out p v)[q]? = out[q]? := by
  have hword : (wordBytes v).length = 4 := rfl
  unfold patch32
  rcases houtside with hlow | hhigh
  · have htake : q < (out.take p).length := by
      rw [length_take]
      omega
    rw [append_assoc, getElem?_append_left htake, getElem?_take_of_lt hlow]
  · have htake : (out.take p).length = p := length_take_of_le (by omega)
    have hfront : (out.take p ++ wordBytes v).length = p + 4 := by
      rw [length_append, htake, hword]
    rw [getElem?_append_right (by omega), hfront, getElem?_drop]
    congr 1
    omega

theorem patch32_inside (hp : p ≤ out.length) : BytesAt (patch32 out p v) p (wordBytes v) := by
  have htake : (out.take p).length = p := length_take_of_le hp
  have hend := (bytesAt_end (out.take p) (wordBytes v)).append (out.drop (p + 4))
  rw [htake] at hend
  exact hend

theorem outWord_of_bytesAt (h : BytesAt out p (wordBytes v)) : outWord out p = v := by
  have hbyte : ∀ k, k < 4 → out.getD (p + k) 0 = byteOf v k := by
    intro k hk
    rw [getD_eq_getElem?_getD, h k hk]
    obtain rfl | rfl | rfl | rfl : k = 0 ∨ k = 1 ∨ k = 2 ∨ k = 3 := by omega
    all_goals rfl
  have hzero := hbyte 0 (by decide)
  rw [Nat.add_zero] at hzero
  unfold outWord
  rw [hzero, hbyte 1 (by decide), hbyte 2 (by decide), hbyte 3 (by decide)]
  exact X86.joinWord_byteOf v

end BytesAt

/-- Behind the prologue nothing in the output changes but displacements of jumps, and no string is
added. -/
structure Spares (s s' : Parser) : Prop where
  length : s.gen.out.length ≤ s'.gen.out.length
  bytes : ∀ p, prologue.length ≤ p → p < s.gen.out.length → ¬ Patching s p →
    s'.gen.out[p]? = s.gen.out[p]?
  places : ∀ p, prologue.length ≤ p → p < s.gen.out.length → Patching s' p → Patching s p
  strings : s'.stringTable = s.stringTable
  prints : s'.printPatches = s.printPatches

section Spares

variable {s s' s'' : Parser} {bytes : List Byte}

theorem Spares.trans (h : Spares s s') (h' : Spares s' s'') : Spares s s'' := by
  refine
    { length := h.length.trans h'.length
      bytes := ?_
      places := ?_
      strings := h'.strings.trans h.strings
      prints := h'.prints.trans h.prints }
  · intro p hlow hp hfree
    have hp' := hp.trans_le h.length
    rw [h'.bytes p hlow hp' fun hopen => hfree (h.places p hlow hp hopen), h.bytes p hlow hp hfree]
  · intro p hlow hp hopen
    exact h.places p hlow hp (h'.places p hlow (hp.trans_le h.length) hopen)

theorem Spares.of_append (hout : s'.gen.out = s.gen.out ++ bytes)
    (hjz : s'.ctrl.jzPatch = s.ctrl.jzPatch ∨ s.gen.out.length ≤ s'.ctrl.jzPatch)
    (hjmp : s'.ctrl.jmpPatch = s.ctrl.jmpPatch ∨ s.gen.out.length ≤ s'.ctrl.jmpPatch ∨ s'.ctrl.jmpPatch = 0)
    (hstrings : s'.stringTable = s.stringTable) (hprints : s'.printPatches = s.printPatches) :
    Spares s s' := by
  refine
    { length := by rw [hout, length_append]; exact Nat.le_add_right _ _
      bytes := fun p _ hp _ => by rw [hout, getElem?_append_left hp]
      places := ?_
      strings := hstrings
      prints := hprints }
  intro p hlow hp hopen
  have hprologue : prologue.length = 9 := rfl
  unfold Patching at hopen ⊢
  rcases hjz with hjz | hjz <;> rcases hjmp with hjmp | hjmp | hjmp <;> omega

theorem Spares.of_out (hout : s'.gen.out = s.gen.out) (hjz : s'.ctrl.jzPatch = s.ctrl.jzPatch)
    (hjmp : s'.ctrl.jmpPatch = s.ctrl.jmpPatch) (hstrings : s'.stringTable = s.stringTable)
    (hprints : s'.printPatches = s.printPatches) : Spares s s' :=
  .of_append (hout.trans (append_nil _).symm) (.inl hjz) (.inl hjmp) hstrings hprints

theorem Spares.emit (s : Parser) (bytes : List Byte) : Spares s (s.emit bytes) :=
  .of_append rfl (.inl rfl) (.inl rfl) rfl rfl

theorem Spares.patch {p : Nat} (v : Word) (h : ∀ q, p ≤ q → q < p + 4 → Patching s q) :
    Spares s (s.patch p v) := by
  refine
    { length := le_length_patch32
      bytes := ?_
      places := fun _ _ _ hopen => hopen
      strings := rfl
      prints := rfl }
  intro q _ hq hfree
  refine patch32_outside hq ?_
  by_contra hinside
  exact hfree (h q (by omega) (by omega))

theorem spares_declare {name : CString} {type : SymType} (h : s.declare name type = some s') :
    Spares s s' := by
  obtain ⟨⟨r, tab⟩, -, h⟩ := Option.bind_eq_some_iff.mp h
  cases h
  exact .of_out rfl rfl rfl rfl rfl

theorem spares_carried : Carried Spares where
  trans := Spares.trans
  append hout hjz hjmp hstrings hprints _ := .of_append hout hjz hjmp hstrings hprints
  declare := spares_declare
  patch := Spares.patch

end Spares

end JexOs.Tcc
