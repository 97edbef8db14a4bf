import JexOs.Proof.TccTable
import JexOs.Proof.TccOutput
import JexOs.Proof.TccFrame
import JexOs.Proof.TccIfElse
import Mathlib.Tactic.IntervalCases

/-!
# Initializers

What `int x = e;` does is compared with `int x; x = e;`. The declaration looks at the first token of `e` only.
-/

namespace JexOs.Tcc

open X86 (Byte Word Memory Cpu Platform Block CodeAt Decodes Plain Operand load32 store32 exec execAll
  execAll_append load32_congr load32_store32 byteOf joinWord getLsbD_byteOf getLsbD_joinWord)
open List Option

/-- `symtab_add` leaves the table alone: the name has a symbol, or no slot is free. -/
def Settled (tab : Symtab) (x : CString) : Prop :=
  symtabLookup tab x ≠ none ∨ findFreeSlot tab = none

structure Introduces (x : CString) (tab tab' : Symtab) : Prop where
  fresh : symtabLookup tab x = none
  found : symtabLookup tab' x ≠ none
  others : ∀ y, y ≠ x → symtabLookup tab' y = symtabLookup tab y

section Table

variable {tab tab' : Symtab} {x : CString} {type : SymType} {offset r : Int} {s s' : Parser}

theorem Flat.any_iff (h : Flat tab) : (tab.entries.any fun sym => sym.scopeLevel = 1 ∧ sym.name = x) = true ↔
      symtabLookup tab x ≠ none := by
  rw [List.any_eq_true]
  constructor
  · rintro ⟨sym, hmem, hsym⟩ hnone
    have hboth : sym.scopeLevel = 1 ∧ sym.name = x := by simpa using hsym
    have hmiss := find?_eq_none.mp hnone sym (mem_reverse.mpr hmem)
    simp [hboth.1, hboth.2] at hmiss
  · intro hsome
    obtain ⟨sym, hsym⟩ := ne_none_iff_exists'.mp hsome
    obtain ⟨hmem, hlevel, hname⟩ := symtabLookup_spec hsym
    exact ⟨sym, hmem, by simp [(h sym hmem).resolve_right hlevel, hname]⟩

theorem symtabAdd_settled (hflat : Flat tab) (h : Settled tab x) :
    symtabAdd tab x type offset 1 = some (-1, tab) := by
  unfold symtabAdd
  rw [if_neg (by decide)]
  by_cases hknown : symtabLookup tab x ≠ none
  · rw [if_pos (hflat.any_iff.mpr hknown)]
  · rw [if_neg (fun hany => hknown (hflat.any_iff.mp hany)), h.resolve_left hknown]

theorem findFreeSlot_split {idx : Nat} (h : findFreeSlot tab = some idx) :
    ∃ before old after, tab.entries = before ++ old :: after ∧ before.length = idx ∧ old.scopeLevel = -1 := by
  have hlevel : (tab.entries[idx]?.map Symbol.scopeLevel) = some (-1) := by
    simpa using find?_some h
  obtain ⟨old, hold, hempty⟩ := map_eq_some_iff.mp hlevel
  obtain ⟨hlt, rfl⟩ := List.getElem?_eq_some_iff.mp hold
  refine ⟨tab.entries.take idx, tab.entries[idx], tab.entries.drop (idx + 1), ?_, ?_, hempty⟩
  · rw [← drop_eq_getElem_cons hlt, take_append_drop]
  · rw [length_take, Nat.min_eq_left hlt.le]

theorem find?_reverse_split {α : Type} (p : α → Bool) (before after : List α) (x : α) :
    (before ++ x :: after).reverse.find? p =
      (after.reverse.find? p).or (if p x then some x else before.reverse.find? p) := by
  rw [reverse_append, reverse_cons, append_assoc, find?_append,
    singleton_append, find?_cons]
  cases p x <;> rfl

theorem symtabAdd_introduces (hflat : Flat tab) (h : ¬ Settled tab x)
    (hadd : symtabAdd tab x type offset 1 = some (r, tab')) :
    Introduces x tab tab' ∧ ∃ sym, symtabLookup tab' x = some sym ∧ sym.type = type ∧ sym.offset = offset := by
  have hfresh : symtabLookup tab x = none := by
    by_contra hknown
    exact h (.inl hknown)
  obtain ⟨idx, hidx⟩ := ne_none_iff_exists'.mp fun hnone => h (.inr hnone)
  obtain ⟨before, old, after, hentries, hlength, hempty⟩ := findFreeSlot_split hidx
  unfold symtabAdd at hadd
  rw [if_neg (by decide), if_neg (fun hany => hflat.any_iff.mp hany hfresh), hidx] at hadd
  obtain ⟨stored, hstored, htab⟩ := bind_eq_some_iff.mp hadd
  have hname : stored = x := by
    unfold strncpy at hstored
    split at hstored
    · exact (some.inj hstored).symm
    · cases hstored
  subst hname
  let new : Symbol :=
    { name := stored
      type := type
      baseType := .int
      offset := offset
      scopeLevel := 1
      arraySize := 0 }
  have hset : tab'.entries = before ++ new :: after := by
    cases htab
    rw [hentries, ← hlength, set_append_right _ _ le_rfl, Nat.sub_self]
    rfl
  have hboth : after.reverse.find? (fun s => decide (s.scopeLevel ≠ -1 ∧ s.name = stored)) = none := by
    unfold symtabLookup at hfresh
    rw [hentries, find?_reverse_split, or_eq_none_iff] at hfresh
    exact hfresh.1
  have hfound : symtabLookup tab' stored = some new := by
    unfold symtabLookup
    rw [hset, find?_reverse_split, hboth, none_or, if_pos (by simp [new])]
  refine ⟨⟨hfresh, ?_, ?_⟩, new, hfound, rfl, rfl⟩
  · rw [hfound]
    exact some_ne_none _
  · intro y hy
    unfold symtabLookup
    rw [hset, hentries, find?_reverse_split, find?_reverse_split, if_neg (by simpa [new] using hy.symm),
      if_neg (by simp [hempty])]

theorem declare_spec (h : s.declare x type = some s') :
    (∃ r, symtabAdd s.symtab x type s.nextOffset 1 = some (r, s'.symtab)) ∧ s'.gen = s.gen := by
  obtain ⟨⟨r, table⟩, hadd, h⟩ := bind_eq_some_iff.mp h
  rw [← some.inj h]
  exact ⟨⟨r, hadd⟩, rfl⟩

theorem declare_settled (hflat : Flat s.symtab) (hsettled : Settled s.symtab x)
    (h : s.declare x type = some s') : s'.symtab = s.symtab := by
  obtain ⟨⟨r, hadd⟩, -⟩ := declare_spec h
  rw [symtabAdd_settled hflat hsettled] at hadd
  exact (congrArg Prod.snd (some.inj hadd)).symm

theorem declare_introduces (hflat : Flat s.symtab) (hnew : ¬ Settled s.symtab x)
    (h : s.declare x type = some s') :
    Introduces x s.symtab s'.symtab ∧ ∃ sym, symtabLookup s'.symtab x = some sym ∧ sym.type = type ∧
      sym.offset = s.nextOffset := by
  obtain ⟨⟨r, hadd⟩, -⟩ := declare_spec h
  exact symtabAdd_introduces hflat hnew hadd

theorem declare_flat (hflat : Flat s.symtab) (h : s.declare x type = some s') : Flat s'.symtab :=
  (enlarged_declare h).flat hflat

theorem declare_known {y : CString} (hflat : Flat s.symtab) (h : s.declare x type = some s')
    (hy : symtabLookup s.symtab y ≠ none) : symtabLookup s'.symtab y ≠ none := by
  by_cases hsettled : Settled s.symtab x
  · rw [declare_settled hflat hsettled h]
    exact hy
  · obtain ⟨hintroduces, -⟩ := declare_introduces hflat hsettled h
    have hne : y ≠ x := by
      rintro rfl
      exact hsettled (.inl hy)
    rw [hintroduces.others y hne]
    exact hy

end Table

section Names

variable {type : SymType} {ts : List Token} {t : Token} {s s₁ s' : Parser} {v : Variable}

theorem declareNames_keeps {P : Parser → Prop} (hstep : ∀ {x s s'}, P s → s.declare x type = some s' → P s')
    (h : declareNames type ts s = some s') (hs : P s) : P s' := by
  induction ts generalizing s with
  | nil =>
    cases h
    exact hs
  | cons t ts ih =>
    rw [declareNames_cons] at h
    obtain ⟨s₁, hs₁, h⟩ := bind_eq_some_iff.mp h
    split at hs₁
    · exact ih h (hstep hs hs₁)
    · cases hs₁
      exact ih h hs

theorem declareNames_gen (h : declareNames type ts s = some s') : s'.gen = s.gen :=
  declareNames_keeps (P := fun s' => s'.gen = s.gen) (fun hs hs₁ => (declare_spec hs₁).2.trans hs) h rfl

variable (hflat : Flat s.symtab)

include hflat

section

variable (h : declareNames type ts s = some s')

include h

theorem declareNames_flat : Flat s'.symtab :=
  declareNames_keeps (P := fun s => Flat s.symtab) declare_flat h hflat

theorem declareNames_known {y : CString} (hy : symtabLookup s.symtab y ≠ none) :
    symtabLookup s'.symtab y ≠ none := by
  have hkept := declareNames_keeps (P := fun s => Flat s.symtab ∧ symtabLookup s.symtab y ≠ none)
    (fun hs hs₁ => ⟨declare_flat hs.1 hs₁, declare_known hs.1 hs₁ hs.2⟩) h ⟨hflat, hy⟩
  exact hkept.2

theorem declareNames_settled (hts : ∀ t ∈ ts, t.type = .tokIdent → Settled s.symtab t.str) :
    s'.symtab = s.symtab := by
  induction ts generalizing s with
  | nil =>
    cases h
    rfl
  | cons t ts ih =>
    rw [declareNames_cons] at h
    obtain ⟨s₁, hs₁, h⟩ := bind_eq_some_iff.mp h
    have hsame : s₁.symtab = s.symtab := by
      split at hs₁
      · exact declare_settled hflat (hts t mem_cons_self ‹_›) hs₁
      · cases hs₁
        rfl
    rw [ih (hsame ▸ hflat) h fun u hu => hsame ▸ hts u (mem_cons_of_mem _ hu), hsame]

theorem declareNames_new (ht : t ∈ ts) (hident : t.type = .tokIdent) (hnew : ¬ Settled s.symtab t.str) :
    ∃ y, symtabLookup s.symtab y = none ∧ symtabLookup s'.symtab y ≠ none := by
  induction ts generalizing s with
  | nil => exact absurd ht not_mem_nil
  | cons u ts ih =>
    rw [declareNames_cons] at h
    obtain ⟨s₁, hs₁, h⟩ := bind_eq_some_iff.mp h
    by_cases hu : u.type = .tokIdent ∧ ¬ Settled s.symtab u.str
    · rw [if_pos hu.1] at hs₁
      obtain ⟨hintroduces, -⟩ := declare_introduces hflat hu.2 hs₁
      exact ⟨u.str, hintroduces.fresh, declareNames_known (declare_flat hflat hs₁) h hintroduces.found⟩
    · have hsame : s₁.symtab = s.symtab := by
        split at hs₁
        · exact declare_settled hflat (not_not.mp fun hn => hu ⟨‹_›, hn⟩) hs₁
        · cases hs₁
          rfl
      have hlater : t ∈ ts := by
        rcases mem_cons.mp ht with rfl | hlater
        · exact absurd ⟨hident, hnew⟩ hu
        · exact hlater
      rw [← hsame]
      exact ih (hsame ▸ hflat) h hlater (hsame ▸ hnew)

end

omit hflat in
theorem setup_spec (h : v.setup s = some s') :
    ∃ s₁ bytes, s.declare v.name v.type = some s₁ ∧ s'.gen = { s.gen with out := s.gen.out ++ bytes } ∧
      declareNames v.type v.init.tail (s₁.emit bytes) = some s' ∧
      bytes = (v.init.head?.elim [] fun t =>
        emitInitializer s₁.symtab t ++ emitMovMemEbpEax s.nextOffset) := by
  obtain ⟨s₁, hdeclare, h⟩ := bind_eq_some_iff.mp h
  have hgen := (declare_spec hdeclare).2
  cases hinit : v.init with
  | nil =>
    rw [hinit] at h
    cases h
    refine ⟨s', [], hdeclare, ?_, ?_, rfl⟩
    · rw [hgen, append_nil]
    · change some (s'.emit []) = some s'
      unfold Parser.emit Gen.emit
      rw [append_nil]
  | cons t ts =>
    rw [hinit] at h
    refine ⟨s₁, _, hdeclare, ?_, h, rfl⟩
    rw [declareNames_gen h, ← hgen]
    rfl

theorem introduces_iff (hdeclare : s.declare v.name v.type = some s₁) (h : v.setup s = some s') :
    Introduces v.name s.symtab s'.symtab ↔ ¬ Settled s.symtab v.name ∧
      ∀ t ∈ v.init.tail, t.type = .tokIdent → Settled s₁.symtab t.str := by
  obtain ⟨s₂, bytes, hdeclare', -, hnames, -⟩ := setup_spec h
  obtain rfl : s₁ = s₂ := some.inj (hdeclare.symm.trans hdeclare')
  have hdeclared : Flat s₁.symtab := declare_flat hflat hdeclare
  have hflat₁ : Flat (s₁.emit bytes).symtab := hdeclared
  constructor
  · intro hintroduces
    have hnew : ¬ Settled s.symtab v.name := by
      intro hsettled
      have hslot := hsettled.resolve_left (not_not.mpr hintroduces.fresh)
      have hsame := declare_settled hflat hsettled hdeclare
      refine hintroduces.found ?_
      rw [declareNames_settled hflat₁ hnames fun t _ _ => .inr ?_]
      · change symtabLookup s₁.symtab _ = none
        rw [hsame]
        exact hintroduces.fresh
      · change findFreeSlot s₁.symtab = none
        rw [hsame]
        exact hslot
    refine ⟨hnew, fun t ht hident => ?_⟩
    by_contra hsettled
    obtain ⟨hdeclared, -⟩ := declare_introduces hflat hnew hdeclare
    obtain ⟨y, hfresh, hfound⟩ := declareNames_new hflat₁ hnames ht hident hsettled
    have hne : y ≠ v.name := by
      rintro rfl
      exact hdeclared.found hfresh
    rw [hintroduces.others y hne, ← hdeclared.others y hne] at hfound
    exact hfound hfresh
  · rintro ⟨hnew, hsettled⟩
    rw [declareNames_settled hflat₁ hnames hsettled]
    exact (declare_introduces hflat hnew hdeclare).1

end Names

def firstValue (tab : Symtab) (t : Token) (c : Cpu) : Word :=
  match t.type with
  | .tokNumber => BitVec.ofInt 32 t.intVal
  | .tokIdent =>
    match symtabLookup tab t.str with
    | some sym => c.get (slot sym)
    | none => 0
  | _ => 0

def Untouched (tab : Symtab) (x : CString) (c c' : Cpu) : Prop :=
  ∀ y sym, y ≠ x → symtabLookup tab y = some sym → ∀ b, Owns sym (c.regs .ebp) b → c'.mem b = c.mem b

structure Alike (tab : Symtab) (c c' : Cpu) : Prop where
  esp : c'.regs .esp = c.regs .esp
  ebp : c'.regs .ebp = c.regs .ebp
  vars : ∀ b, Owned tab (c.regs .ebp) b → c'.mem b = c.mem b

/-- Wherever the two pieces of code lie they come to their ends alike, and the first changes no variable but `x`. -/
def SameEffect (tab : Symtab) (x : CString) (bytes bytes' : List Byte) : Prop :=
  ∀ p code code' a a' c, CodeAt code a bytes → CodeAt code' a' bytes' → Room tab bytes'.length c →
    ∃ c₁ c₂, Block p code a bytes.length c c₁ ∧ Block p code' a' bytes'.length c c₂ ∧
      Alike tab c₁ c₂ ∧ Untouched tab x c c₁

/-- From any such state the code gives `x` the value of the token, and leaves the frame and the other
variables as they are. -/
def TakesFirst (tab : Symtab) (x : CString) (t : Token) (bytes : List Byte) : Prop :=
  ∀ p code a c, CodeAt code a bytes → Room tab bytes.length c →
    ∃ c', Block p code a bytes.length c c' ∧ c'.regs .esp = c.regs .esp ∧
      c'.regs .ebp = c.regs .ebp ∧
      (∀ sym, symtabLookup tab x = some sym → c'.get (slot sym) = firstValue tab t c) ∧
      Untouched tab x c c'

section Code

variable {tab : Symtab} {x : CString} {t : Token} {sym : Symbol} {bytes : List Byte} {p : Platform}
  {code : Word → Byte} {a : Word} {c : Cpu}

theorem byteOf_load32 (mem : Memory) (a : Word) {k : Nat} (hk : k < 4) :
    byteOf (load32 mem a) k = mem (a + BitVec.ofNat 32 k) := by
  have hbyte : ∀ b₀ b₁ b₂ b₃ : Byte, byteOf (joinWord b₀ b₁ b₂ b₃) k =
      if k = 0 then b₀ else if k = 1 then b₁ else if k = 2 then b₂ else b₃ := by
    intro b₀ b₁ b₂ b₃
    refine BitVec.eq_of_getLsbD_eq fun i hi => ?_
    rw [getLsbD_byteOf, getLsbD_joinWord, decide_eq_true hi, Bool.true_and]
    interval_cases k
    · rw [if_pos (by omega), if_pos rfl, Nat.mul_zero, Nat.zero_add]
    · rw [if_neg (by omega), if_pos (by omega), if_neg (by decide), if_pos rfl,
        show 8 * 1 + i - 8 = i by omega]
    · rw [if_neg (by omega), if_neg (by omega), if_pos (by omega), if_neg (by decide),
        if_neg (by decide), if_pos rfl, show 8 * 2 + i - 16 = i by omega]
    · rw [if_neg (by omega), if_neg (by omega), if_neg (by omega), if_neg (by decide),
        if_neg (by decide), if_neg (by decide), show 8 * 3 + i - 24 = i by omega]
  unfold load32
  rw [hbyte]
  interval_cases k
  · rw [BitVec.add_zero]
    rfl
  · rfl
  · rfl
  · rfl

theorem load32_injective {mem mem' : Memory} {b : Word} (h : load32 mem a = load32 mem' a)
    (hb : X86.Within a 4 b) : mem b = mem' b := by
  have hoffset : b = a + BitVec.ofNat 32 (b - a).toNat := by
    rw [BitVec.ofNat_toNat, BitVec.setWidth_eq, BitVec.add_comm, BitVec.sub_add_cancel]
  rw [hoffset, ← byteOf_load32 mem a hb, ← byteOf_load32 mem' a hb, h]

theorem decodes_initializer (tab : Symtab) (t : Token) : ∃ q, Decodes (emitInitializer tab t) [q] ∧
      ∀ c, exec c q = some (c.setReg .eax (firstValue tab t c)) := by
  unfold emitInitializer firstValue
  by_cases hnumber : t.type = .tokNumber
  · rw [hnumber]
    exact ⟨_, decodes_immediate _, fun c => rfl⟩
  by_cases hident : t.type = .tokIdent
  · rw [hident]
    cases hlookup : symtabLookup tab t.str with
    | some sym =>
      have hload : Decodes (emitMovEaxMemEbp sym.offset) [.mov (.reg .eax) (slot sym)] :=
        decodes_ebp (fun field o => some (.mov (.reg (X86.regOf field)) o)) (fun _ => rfl) rfl
      exact ⟨_, hload, fun c => rfl⟩
    | none => exact ⟨_, decodes_immediate 0, fun c => rfl⟩
  · refine ⟨.movImm .eax 0, ?_, fun c => ?_⟩
    · split
      · contradiction
      · contradiction
      · exact decodes_immediate 0
    · split
      · contradiction
      · contradiction
      · rfl

theorem length_initializer (tab : Symtab) (t : Token) (offset : Int) :
    (emitInitializer tab t ++ emitMovMemEbpEax offset).length ≤ 12 := by
  have hfirst : (emitInitializer tab t).length ≤ 6 := by
    unfold emitInitializer
    split
    · exact Nat.le_succ _
    · split
      · exact Nat.succ_le_succ (length_ebpOperand _)
      · exact Nat.le_succ _
    · exact Nat.le_succ _
  have hstore : (emitMovMemEbpEax offset).length ≤ 6 := Nat.succ_le_succ (length_ebpOperand _)
  rw [length_append]
  exact Nat.add_le_add hfirst hstore

theorem initializer_runs (hcode : CodeAt code a (emitInitializer tab t ++ emitMovMemEbpEax sym.offset)) :
    ∃ c', Block p code a (emitInitializer tab t ++ emitMovMemEbpEax sym.offset).length c c' ∧
      c'.regs .esp = c.regs .esp ∧ c'.regs .ebp = c.regs .ebp ∧
      c'.mem = store32 c.mem (c.regs .ebp + BitVec.ofInt 32 sym.offset) (firstValue tab t c) := by
  obtain ⟨q, hdecodes, hexec⟩ := decodes_initializer tab t
  have hstore : Decodes (emitMovMemEbpEax sym.offset) [.mov (slot sym) (.reg .eax)] := decodes_store_word
  have hsize : (emitInitializer tab t ++ emitMovMemEbpEax sym.offset).length < 2 ^ 32 :=
    (length_initializer tab t sym.offset).trans_lt (by decide)
  let c₁ := c.setReg .eax (firstValue tab t c)
  have hall : execAll ([q] ++ [.mov (slot sym) (.reg .eax)]) c =
      some (c₁.set (slot sym) (c₁.regs .eax)) := by
    rw [execAll_append, execAll_cons, hexec]
    rfl
  refine ⟨_, Block.straight (hdecodes.append hstore) hcode hsize hall, rfl, rfl, rfl⟩

theorem sameEffect_iff (hsym : symtabLookup tab x = some sym) (htype : sym.type = .int) :
    SameEffect tab x (emitInitializer tab t ++ emitMovMemEbpEax sym.offset) bytes ↔
    TakesFirst tab x t bytes := by
  have hplace : ∀ {ebp b : Word}, Owns sym ebp b → X86.Within (ebp + BitVec.ofInt 32 sym.offset) 4 b := by
    intro ebp b hb
    unfold Owns at hb
    rwa [htype] at hb
  constructor
  · intro h p code a c hcode hroom
    have hfits : (emitInitializer tab t ++ emitMovMemEbpEax sym.offset).length ≤ 2 ^ 32 :=
      (length_initializer tab t sym.offset).trans (by decide)
    have hfirst := X86.codeAt_placed hfits 0
    obtain ⟨c₁, c₂, hblock₁, hblock₂, halike, huntouched⟩ := h p _ code 0 a c hfirst hcode hroom
    obtain ⟨c', hblock, hesp, hebp, hmem⟩ := initializer_runs (p := p) (c := c) hfirst
    obtain rfl := hblock.unique hblock₁
    refine ⟨c₂, hblock₂, halike.esp.trans hesp, halike.ebp.trans hebp, ?_, ?_⟩
    · intro sym' hsym'
      obtain rfl : sym = sym' := some.inj (hsym.symm.trans hsym')
      change load32 c₂.mem (c₂.regs .ebp + BitVec.ofInt 32 sym.offset) = _
      rw [halike.ebp, hebp, load32_congr fun b hb => halike.vars b ?_, hmem, load32_store32]
      refine ⟨x, sym, hsym, ?_⟩
      unfold Owns
      rw [htype, hebp]
      exact hb
    · intro y sym' hy hsym' b hb
      rw [halike.vars b ⟨y, sym', hsym', hebp.symm ▸ hb⟩]
      exact huntouched y sym' hy hsym' b hb
  · intro h p code code' a a' c hcode hcode' hroom
    obtain ⟨c₁, hblock₁, hesp₁, hebp₁, hmem₁⟩ := initializer_runs (p := p) (c := c) hcode
    obtain ⟨c₂, hblock₂, hesp₂, hebp₂, hvalue, huntouched⟩ := h p code' a' c hcode' hroom
    -- at the place of `x` both have the value, elsewhere the initializer changes nothing
    have hat : ∀ b, X86.Within (c.regs .ebp + BitVec.ofInt 32 sym.offset) 4 b → c₂.mem b = c₁.mem b := by
      intro b hb
      refine load32_injective ?_ hb
      have hload : load32 c₂.mem (c₂.regs .ebp + BitVec.ofInt 32 sym.offset) =
        firstValue tab t c := hvalue sym hsym
      rw [hebp₂] at hload
      rw [hload, hmem₁, load32_store32]
    have hothers : ∀ y sym', y ≠ x → symtabLookup tab y = some sym' → ∀ b,
        Owns sym' (c.regs .ebp) b → c₂.mem b = c₁.mem b := by
      intro y sym' hy hsym' b hb
      by_cases hwithin : X86.Within (c.regs .ebp + BitVec.ofInt 32 sym.offset) 4 b
      · exact hat b hwithin
      · rw [hmem₁, X86.store32_of_not_within hwithin]
        exact huntouched y sym' hy hsym' b hb
    refine ⟨c₁, c₂, hblock₁, hblock₂, ⟨hesp₂.trans hesp₁.symm, hebp₂.trans hebp₁.symm, ?_⟩, ?_⟩
    · rintro b ⟨y, sym', hsym', hb⟩
      rw [hebp₁] at hb
      by_cases hy : y = x
      · subst hy
        obtain rfl : sym = sym' := some.inj (hsym.symm.trans hsym')
        exact hat b (hplace hb)
      · exact hothers y sym' hy hsym' b hb
    · intro y sym' hy hsym' b hb
      rw [← hothers y sym' hy hsym' b hb]
      exact huntouched y sym' hy hsym' b hb

end Code

/-- `x = e;` stands in the tokens, and behind `int x;` the parser of expressions takes all of `e`. -/
structure Variable.AssignedAt (v : Variable) (s : Parser) (tokens : List Token) (i : Nat) : Prop where
  initialized : v.init ≠ []
  stands : ∃ x eq semi rest, From tokens i (x :: eq :: (v.init ++ semi :: rest)) ∧
    x.type = .tokIdent ∧ x.str = v.name ∧ eq.type = .tokAssign ∧ semi.type = .tokSemicolon
  accepted : ∃ r g, Returns (fun k => exprParse tokens s.symtab k { s.gen with pos := i + 2 }) (r, g) ∧
    0 ≤ r ∧ g.pos = i + 2 + v.init.length

def Variable.Accepted (v : Variable) (s : Parser) : Prop :=
  v.init = [] ∨ ∃ tokens i, v.AssignedAt s tokens i

/-- The name with its initializer enters the name and nothing else, and stands for `int x;` and `x = e;`. -/
def Variable.Exact (v : Variable) (s s' : Parser) : Prop :=
  v.setup s = some s' ∧ ∃ s₁, s.declare v.name v.type = some s₁ ∧
    (v.Accepted s₁ → Introduces v.name s.symtab s'.symtab) ∧
    ∀ tokens i, v.AssignedAt s₁ tokens i → ∃ s₂ bytes bytes', Turns tokens (s₁.goto i) s₂ ∧
      s₂.symtab = s'.symtab ∧ s'.gen.out = s.gen.out ++ bytes ∧ s₂.gen.out = s.gen.out ++ bytes' ∧
      SameEffect s'.symtab v.name bytes bytes'

/-- The name is new and has room, the names behind `e` are settled, and `x = e;` takes the first token of `e`. -/
def Variable.Literal (v : Variable) (s s' : Parser) : Prop :=
  v.setup s = some s' ∧ ∃ s₁, s.declare v.name v.type = some s₁ ∧
    (v.Accepted s₁ → ¬ Settled s.symtab v.name ∧
      ∀ t ∈ v.init.tail, t.type = .tokIdent → Settled s₁.symtab t.str) ∧
    ∀ tokens i, v.AssignedAt s₁ tokens i → ∃ s₂ t bytes, Turns tokens (s₁.goto i) s₂ ∧
      v.init.head? = some t ∧ s₂.gen.out = s.gen.out ++ bytes ∧ TakesFirst s₁.symtab v.name t bytes

def Each (P : Variable → Parser → Parser → Prop) : List Variable → Parser → Parser → Prop
  | [], s, s' => s' = s
  | v :: vs, s, s' => ∃ s₁, P v s s₁ ∧ Each P vs s₁ s'

section Compare

variable {tokens : List Token} {i fuel size : Nat} {g : Gen} {s s₁ s' : Parser} {v : Variable}
  {vs : List Variable} {ts rest : List Token} {t x eq : Token}

def SameTable (s : Parser) (result : Option Parser) : Prop :=
  ∀ s', result = some s' → s'.symtab = s.symtab

theorem SameTable.result (h : s₁.symtab = s.symtab) : SameTable s (some s₁) := by
  rintro s' ⟨⟩
  exact h

theorem SameTable.bind {α : Type} {x : Option α} {f : α → Option Parser}
    (h : ∀ a, x = some a → SameTable s (f a)) : SameTable s (x >>= f) := by
  intro s' hs'
  obtain ⟨a, hx, hf⟩ := bind_eq_some_iff.mp hs'
  exact h a hx s' hf

theorem sameTable_parseAsm : SameTable s (parseAsm tokens s) := by
  refine .bind fun _ _ => .bind fun tok _ => .bind fun _ _ => .result ?_
  split <;> rfl

theorem sameTable_parseAssignment {name : CString} (hknown : symtabLookup s.symtab name ≠ none) :
    SameTable s (parseAssignment tokens fuel name s) := by
  obtain ⟨sym, hsym⟩ := ne_none_iff_exists'.mp hknown
  have hparse : ∀ {p : Nat} {r : Bool × Nat × Parser}, parseAt tokens fuel s p = some r →
      r.2.2.symtab = s.symtab := by
    intro p r h
    obtain ⟨_, -, h⟩ := bind_eq_some_iff.mp h
    cases h
    rfl
  unfold parseAssignment lookupOrDeclare
  rw [hsym]
  refine .bind fun known hknown => ?_
  cases hknown
  dsimp only
  repeat' first
    | exact .result rfl
    | exact .result (hparse ‹_›)
    | refine .bind fun _ _ => ?_
    | split

theorem Variable.AssignedAt.symtab (h : v.AssignedAt s tokens i)
    (hknown : symtabLookup s.symtab v.name ≠ none) (hturns : Turns tokens (s.goto i) s') :
    s'.symtab = s.symtab := by
  obtain ⟨x, eq, semi, rest, hfrom, hx, hname, heq, -⟩ := h.stands
  obtain ⟨n, hn⟩ := hturns
  have hturn := hn n le_rfl
  have hplace : From tokens (s.goto i).gen.pos (x :: eq :: (v.init ++ semi :: rest)) := hfrom
  by_cases hasm : x.str = cstring "asm"
  · rw [parseTurn_name hplace hx (by rw [heq]; decide), if_pos hasm] at hturn
    have hsame : s'.symtab = (s.goto i).symtab := sameTable_parseAsm s' hturn
    exact hsame
  · rw [parseTurn_assign hplace hx heq hasm, hname] at hturn
    have hstill : symtabLookup (s.goto i).symtab v.name ≠ none := hknown
    have hsame : s'.symtab = (s.goto i).symtab := sameTable_parseAssignment hstill s' hturn
    exact hsame

theorem Variable.setup_flat (hflat : Flat s.symtab) (h : v.setup s = some s') : Flat s'.symtab := by
  obtain ⟨s₁, bytes, hdeclare, -, hnames, -⟩ := setup_spec h
  have hdeclared : Flat s₁.symtab := declare_flat hflat hdeclare
  have hflat₁ : Flat (s₁.emit bytes).symtab := hdeclared
  exact declareNames_flat hflat₁ hnames

theorem exact_iff_literal (htype : v.type = .int) (hflat : Flat s.symtab) : v.Exact s s' ↔ v.Literal s s' := by
  have hshared : ∀ {s₁}, v.setup s = some s' → s.declare v.name v.type = some s₁ →
      ¬ Settled s.symtab v.name →
      (∀ t ∈ v.init.tail, t.type = .tokIdent → Settled s₁.symtab t.str) →
      s'.symtab = s₁.symtab ∧ ∃ sym, symtabLookup s₁.symtab v.name = some sym ∧ sym.type = .int ∧
        sym.offset = s.nextOffset := by
    intro s₁ hinit hdeclare hnew hsettled
    obtain ⟨s₂, bytes, hdeclare', -, hnames, -⟩ := setup_spec hinit
    obtain rfl : s₁ = s₂ := some.inj (hdeclare.symm.trans hdeclare')
    have hdeclared : Flat s₁.symtab := declare_flat hflat hdeclare
    have hflat₁ : Flat (s₁.emit bytes).symtab := hdeclared
    obtain ⟨-, sym, hsym, hsymtype, hoffset⟩ := declare_introduces hflat hnew hdeclare
    have hstill : ∀ t ∈ v.init.tail, t.type = .tokIdent → Settled (s₁.emit bytes).symtab t.str := hsettled
    have htable := declareNames_settled hflat₁ hnames hstill
    exact ⟨htable, sym, hsym, hsymtype.trans htype, hoffset⟩
  constructor
  · rintro ⟨hinit, s₁, hdeclare, hintroduces, hsame⟩
    refine ⟨hinit, s₁, hdeclare, fun haccepted =>
      (introduces_iff hflat hdeclare hinit).mp (hintroduces haccepted), ?_⟩
    intro tokens i hassigned
    obtain ⟨hnew, hsettled⟩ :=
      (introduces_iff hflat hdeclare hinit).mp (hintroduces (.inr ⟨tokens, i, hassigned⟩))
    obtain ⟨htab, sym, hsym, hint, hoffset⟩ := hshared hinit hdeclare hnew hsettled
    obtain ⟨s₂, bytes, bytes', hturns, -, hout, hout', heffect⟩ := hsame tokens i hassigned
    obtain ⟨t, ts, hts⟩ := exists_cons_of_ne_nil hassigned.initialized
    have hbytes : bytes = emitInitializer s₁.symtab t ++ emitMovMemEbpEax sym.offset := by
      obtain ⟨s₃, code, hdeclare', hgen, -, hcode⟩ := setup_spec hinit
      obtain rfl : s₁ = s₃ := some.inj (hdeclare.symm.trans hdeclare')
      rw [hts] at hcode
      rw [hgen] at hout
      rw [← append_cancel_left hout, hcode, hoffset]
      rfl
    rw [htab, hbytes] at heffect
    exact ⟨s₂, t, bytes', hturns, by rw [hts]; rfl, hout', (sameEffect_iff hsym hint).mp heffect⟩
  · rintro ⟨hinit, s₁, hdeclare, hcond, htakes⟩
    refine ⟨hinit, s₁, hdeclare, fun haccepted =>
      (introduces_iff hflat hdeclare hinit).mpr (hcond haccepted), ?_⟩
    intro tokens i hassigned
    obtain ⟨hnew, hsettled⟩ := hcond (.inr ⟨tokens, i, hassigned⟩)
    obtain ⟨htab, sym, hsym, hint, hoffset⟩ := hshared hinit hdeclare hnew hsettled
    obtain ⟨s₂, t, bytes', hturns, ht, hout', hfirst⟩ := htakes tokens i hassigned
    obtain ⟨s₃, code, hdeclare', hgen, -, hcode⟩ := setup_spec hinit
    obtain rfl : s₁ = s₃ := some.inj (hdeclare.symm.trans hdeclare')
    have hknown : symtabLookup s₁.symtab v.name ≠ none := by
      rw [hsym]
      exact some_ne_none _
    refine ⟨s₂, code, bytes', hturns, (hassigned.symtab hknown hturns).trans htab.symm,
      by rw [hgen], hout', ?_⟩
    rw [ht] at hcode
    rw [htab, hcode, ← hoffset]
    exact (sameEffect_iff hsym hint).mpr hfirst

theorem each_iff (htype : ∀ v ∈ vs, v.type = .int) (hflat : Flat s.symtab) :
    Each Variable.Exact vs s s' ↔ Each Variable.Literal vs s s' := by
  induction vs generalizing s with
  | nil => exact Iff.rfl
  | cons v vs ih =>
    have hrest : ∀ {s₁}, v.setup s = some s₁ →
        (Each Variable.Exact vs s₁ s' ↔ Each Variable.Literal vs s₁ s') := fun hinit =>
      ih (fun w hw => htype w (mem_cons_of_mem _ hw)) (Variable.setup_flat hflat hinit)
    have hone : ∀ {s₁}, v.Exact s s₁ ↔ v.Literal s s₁ := exact_iff_literal (htype v mem_cons_self) hflat
    constructor
    · rintro ⟨s₁, hexact, heach⟩
      exact ⟨s₁, hone.mp hexact, (hrest hexact.1).mp heach⟩
    · rintro ⟨s₁, hliteral, heach⟩
      exact ⟨s₁, hone.mpr hliteral, (hrest hliteral.1).mpr heach⟩

theorem Each.setup (h : Each Variable.Literal vs s s') : vs.foldlM (fun s v => v.setup s) s = some s' := by
  induction vs generalizing s with
  | nil =>
    obtain rfl : s' = s := h
    rfl
  | cons v vs ih =>
    obtain ⟨s₁, hliteral, heach⟩ := h
    rw [foldlM_cons, hliteral.1]
    exact ih heach

theorem Reached.flat (h : Reached tokens size fuel g s) : Flat s.symtab := by
  induction h with
  | start => exact flat_init
  | turn _ _ hturn ih => exact (enlarges_parseTurn _ hturn).flat ih

/-- In any state of a run, a declaration of `int` variables does what `int x; x = e;` would for each of them,
exactly where each finds its condition. -/
theorem initializers_iff (hreached : Reached tokens size fuel g s)
    (hat : From tokens s.gen.pos (t :: (ts ++ rest))) (ht : t.type = .tokInt) (h : Declarators .int vs ts) :
    (∃ s', Turns tokens s (s'.goto (s.gen.pos + (t :: ts).length)) ∧ Each Variable.Exact vs s s') ↔
      ∃ s', Each Variable.Literal vs s s' := by
  have hflat := hreached.flat
  constructor
  · rintro ⟨s', -, heach⟩
    exact ⟨s', (each_iff h.types hflat).mp heach⟩
  · rintro ⟨s', heach⟩
    have hloops : Loops tokens .int (s.gen.pos + 1) s s' := loops_declarators h hat.tail heach.setup
    exact ⟨s', turns_of_loops (.inl ht) (if_pos ht) h hat hloops, (each_iff h.types hflat).mpr heach⟩

end Compare

section Single

variable {s s₁ s' : Parser} {v : Variable} {t : Token} {tab : Symtab} {x : CString} {sym : Symbol}

def Atom (tab : Symtab) (t : Token) : Prop :=
  t.type = .tokNumber ∨
    t.type = .tokIdent ∧ ∃ sym, symtabLookup tab t.str = some sym ∧ sym.type = .int

theorem Atom.expr (h : Atom tab t) :
    ∃ e, Derives e [t] ∧ e.Declared tab ∧ e.code tab = emitInitializer tab t := by
  rcases h with hnumber | ⟨hident, sym, hsym, hint⟩
  · refine ⟨.num t.intVal, Derives.num hnumber, trivial, ?_⟩
    unfold emitInitializer
    rw [hnumber]
    rfl
  · refine ⟨.var t.str, Derives.var hident, ⟨sym, hsym, .inl hint⟩, ?_⟩
    unfold emitInitializer
    rw [hident]
    dsimp only
    rw [hsym, Expr.code, symbolOf_eq hsym]
    unfold emitLoad
    rw [if_neg (by rw [hint]; decide)]

theorem takesFirst_initializer (hplain : PlainTable tab) (hsym : symtabLookup tab x = some sym)
    (hint : sym.type = .int) : TakesFirst tab x t (emitInitializer tab t ++ emitMovMemEbpEax sym.offset) := by
  intro p code a c hcode hroom
  obtain ⟨c', hblock, hesp, hebp, hmem⟩ := initializer_runs (p := p) (c := c) hcode
  refine ⟨c', hblock, hesp, hebp, ?_, ?_⟩
  · intro sym' hsym'
    obtain rfl : sym = sym' := some.inj (hsym.symm.trans hsym')
    change load32 c'.mem (c'.regs .ebp + BitVec.ofInt 32 sym.offset) = _
    rw [hebp, hmem, load32_store32]
  · intro y sym' hy hsym' b hb
    rw [hmem, X86.store32_of_not_within]
    intro hwithin
    refine hy (hplain.disjoint hsym' hsym hb ?_)
    unfold Owns
    rw [hint]
    exact hwithin

theorem turns_assigned {tokens ts rest : List Token} {i : Nat} {y eq semi : Token} {e : Expr}
    (hfrom : From tokens i (y :: eq :: (t :: ts ++ semi :: rest))) (hy : y.type = .tokIdent)
    (hasm : y.str ≠ cstring "asm") (heq : eq.type = .tokAssign) (hsemi : semi.type = .tokSemicolon)
    (hderives : Derives e (t :: ts)) (hdeclared : e.Declared s.symtab)
    (hptr : s.gen.lastIdentType ≠ .ptr) (hsym : symtabLookup s.symtab y.str = some sym)
    (hcalled : t.type = .tokIdent → typeAt tokens (i + 3) = some .tokSemicolon) :
    ∃ s' g', Returns (fun k => exprParse tokens s.symtab k { s.gen with pos := i + 2 }) (0, g') ∧
      g'.pos = i + 2 + (t :: ts).length ∧ Turns tokens (s.goto i) s' ∧
      s'.gen.out = s.gen.out ++ (e.code s.symtab ++ emitMovMemEbpEax sym.offset) := by
  have hright : From tokens (i + 2) (t :: ts ++ semi :: rest) := hfrom.tail.tail
  have hat : At tokens { s.gen with pos := i + 2 } (t :: ts ++ semi :: rest) := hright
  obtain ⟨g', hemitted, hreturns⟩ := exprParse_returns hderives hdeclared hat hptr
    (by rw [hsemi]; decide) (by rw [hsemi]; rfl)
  obtain ⟨n, hn⟩ := hreturns
  have hend : g'.pos = i + 2 + (t :: ts).length := hemitted.pos
  have hnocall : (if t.type = .tokIdent then
      (typeAt tokens ((s.goto i).gen.pos + 3)).map fun type => decide (type = .tokLparen)
      else some false) = some false := by
    split
    · change (typeAt tokens (i + 3)).map _ = _
      rw [hcalled ‹_›]
      rfl
    · rfl
  have hskip : skipStatement tokens g'.pos = some (g'.pos + 1) := by
    have hnone : From tokens g'.pos ([] ++ semi :: rest) := by
      rw [hend]
      exact hright.advance
    exact skipStatement_from hnone (fun u hu => absurd hu not_mem_nil) hsemi
  have hlookup : symtabLookup (s.goto i).symtab y.str = some sym := hsym
  have hparse : ∀ k, n ≤ k → parseAt tokens k (s.goto i) ((s.goto i).gen.pos + 2) =
      some (true, g'.pos, { s with gen := { g' with pos := i } }) := by
    intro k hk
    have hexpr : exprParse tokens s.symtab k { s.gen with pos := i + 2 } = some (0, g') := hn k hk
    unfold parseAt
    change (exprParse tokens s.symtab k { s.gen with pos := i + 2 }).bind _ = _
    rw [hexpr, bind_some]
    rfl
  refine ⟨(({ s with gen := { g' with pos := i } } : Parser).emit (emitMovMemEbpEax sym.offset)).goto
    (g'.pos + 1), g', ⟨n, hn⟩, hend, ⟨n, fun k hk => ?_⟩, ?_⟩
  · have hplace : From tokens (s.goto i).gen.pos (y :: eq :: (t :: ts ++ semi :: rest)) := hfrom
    rw [parseTurn_assign hplace hy heq hasm, parseAssignment_known hlookup hright.head hnocall,
      if_neg Bool.false_ne_true, hparse k hk, bind_some]
    dsimp only
    rw [if_pos rfl, hskip]
    rfl
  · change g'.out ++ emitMovMemEbpEax sym.offset = _
    rw [hemitted.out, append_assoc]

theorem literal_atom (hinit : v.init = [t]) (hsetup : v.setup s = some s')
    (hdeclare : s.declare v.name v.type = some s₁) (hnew : ¬ Settled s.symtab v.name)
    (hasm : v.name ≠ cstring "asm") (hatom : Atom s₁.symtab t) (hplain : PlainTable s₁.symtab)
    (hptr : s.gen.lastIdentType ≠ .ptr) (hsym : symtabLookup s₁.symtab v.name = some sym)
    (hint : sym.type = .int) : v.Literal s s' := by
  have hgen : s₁.gen = s.gen := (declare_spec hdeclare).2
  refine ⟨hsetup, s₁, hdeclare, fun _ => ⟨hnew, ?_⟩, ?_⟩
  · rw [hinit]
    exact fun u hu => absurd hu not_mem_nil
  · intro tokens i hassigned
    obtain ⟨x, eq, semi, rest, hfrom, hx, hname, heq, hsemi⟩ := hassigned.stands
    obtain ⟨e, hderives, hdeclared, hcode⟩ := hatom.expr
    rw [hinit] at hfrom
    have hnext : t.type = .tokIdent → typeAt tokens (i + 3) = some .tokSemicolon := by
      intro _
      rw [← hsemi]
      exact typeAt_from hfrom.tail.tail.tail
    obtain ⟨s₂, g', -, -, hturns, hout⟩ := turns_assigned hfrom hx (by rwa [hname]) heq hsemi hderives
      hdeclared (hgen ▸ hptr) (by rwa [hname]) hnext
    rw [hcode, hgen] at hout
    exact ⟨s₂, t, _, hturns, by rw [hinit]; rfl, hout, takesFirst_initializer hplain hsym hint⟩

end Single

section Trial

def trialPair : List Token :=
  [trialToken .tokInt "int", trialToken .tokIdent "x", trialToken .tokAssign "=", trialNumber 5,
    trialToken .tokComma ",", trialToken .tokIdent "y", trialToken .tokAssign "=",
    trialToken .tokIdent "x", trialToken .tokSemicolon ";"]

def trialX : Variable :=
  { name := cstring "x"
    type := .int
    init := [trialNumber 5] }

def trialY : Variable :=
  { name := cstring "y"
    type := .int
    init := [trialToken .tokIdent "x"] }

def symbolX : Symbol := newSymbol (cstring "x") .int 0

def symbolY : Symbol := newSymbol (cstring "y") .int 4

def tableX : Symtab :=
  { entries := symbolX :: List.replicate 255 emptySymbol
    nextFree := 1 }

def tableXY : Symtab :=
  { entries := symbolX :: symbolY :: List.replicate 254 emptySymbol
    nextFree := 2 }

theorem not_owns_both {ebp b : Word} (hx : Owns symbolX ebp b) : ¬ Owns symbolY ebp b := by
  intro hy
  simp only [Owns, X86.Within, symbolX, symbolY, newSymbol, symTypeSize] at hx hy
  bv_omega

theorem tableXY_entries {sym : Symbol} (hmem : sym ∈ tableXY.entries) (hlive : sym.scopeLevel ≠ -1) :
    sym = symbolX ∨ sym = symbolY := by
  rcases mem_cons.mp hmem with rfl | hmem
  · exact .inl rfl
  rcases mem_cons.mp hmem with rfl | hmem
  · exact .inr rfl
  · rw [eq_of_mem_replicate hmem] at hlive
    exact absurd rfl hlive

theorem tableX_entries {sym : Symbol} (hmem : sym ∈ tableX.entries) (hlive : sym.scopeLevel ≠ -1) :
    sym = symbolX := by
  rcases mem_cons.mp hmem with rfl | hmem
  · rfl
  · rw [eq_of_mem_replicate hmem] at hlive
    exact absurd rfl hlive

theorem plainTable_tableX : PlainTable tableX := by
  refine PlainTable.of_entries (fun sym hsym hlive => ?_) fun sym hsym hlive sym' hsym' hlive' ebp b _ _ => ?_
  · rw [tableX_entries hsym hlive]
    exact .inl rfl
  · rw [tableX_entries hsym hlive, tableX_entries hsym' hlive']

theorem plainTable_tableXY : PlainTable tableXY := by
  refine PlainTable.of_entries (fun sym hsym hlive => ?_)
    fun sym hsym hlive sym' hsym' hlive' ebp b hb hb' => ?_
  · rcases tableXY_entries hsym hlive with rfl | rfl
    · exact .inl rfl
    · exact .inl rfl
  · rcases tableXY_entries hsym hlive with rfl | rfl <;> rcases tableXY_entries hsym' hlive' with rfl | rfl
    · rfl
    · exact absurd hb' (not_owns_both hb)
    · exact absurd hb (not_owns_both hb')
    · rfl

def trialFirst : Parser := (trialX.setup (initialParser trialGen)).getD (initialParser trialGen)

def trialDeclared (s : Parser) (x : String) : Parser := (s.declare (cstring x) .int).getD s

theorem trialDeclared_x :
    (initialParser trialGen).declare (cstring "x") .int = some (trialDeclared (initialParser trialGen) "x") ∧
      (trialDeclared (initialParser trialGen) "x").symtab = tableX := by
  decide +kernel

theorem trialDeclared_y : trialFirst.declare (cstring "y") .int = some (trialDeclared trialFirst "y") ∧
    (trialDeclared trialFirst "y").symtab = tableXY := by
  decide +kernel

theorem initializers_iff_pair : ∃ s', Turns trialPair (initialParser trialGen) (s'.goto 9) ∧
      Each Variable.Exact [trialX, trialY] (initialParser trialGen) s' := by
  have hx : Declarator .int trialX
      [trialToken .tokIdent "x", trialToken .tokAssign "=", trialNumber 5] := by
    have hassign : (trialToken .tokAssign "=").type = .tokAssign := rfl
    have hident : (trialToken .tokIdent "x").type = .tokIdent := rfl
    have hfive : Inner (trialNumber 5) := ⟨by decide, by decide, by decide⟩
    exact Declarator.init hident hassign hfive fun t ht => absurd ht not_mem_nil
  have hy : Declarator .int trialY
      [trialToken .tokIdent "y", trialToken .tokAssign "=", trialToken .tokIdent "x"] := by
    have hassign : (trialToken .tokAssign "=").type = .tokAssign := rfl
    have hident : (trialToken .tokIdent "y").type = .tokIdent := rfl
    have hname : Inner (trialToken .tokIdent "x") := ⟨by decide, by decide, by decide⟩
    exact Declarator.init hident hassign hname fun t ht => absurd ht not_mem_nil
  have hsemi : (trialToken .tokSemicolon ";").type = .tokSemicolon := rfl
  have hcomma : (trialToken .tokComma ",").type = .tokComma := rfl
  have hdeclarators := Declarators.more hx hcomma (Declarators.last hy hsemi)
  have hat : From trialPair (initialParser trialGen).gen.pos (trialPair ++ []) := ⟨[], rfl, rfl⟩
  refine (initializers_iff (@Reached.start trialPair 4096 20 trialGen) hat rfl hdeclarators).mpr ?_
  have hs₁ : trialX.setup (initialParser trialGen) = some trialFirst := by decide +kernel
  obtain ⟨hdeclare, htable⟩ := trialDeclared_x
  obtain ⟨hdeclare', htable'⟩ := trialDeclared_y
  have hlookup : symtabLookup tableX (cstring "x") = some symbolX := by decide
  have hlookup' : symtabLookup tableXY (cstring "x") = some symbolX := by decide
  have hlookupY : symtabLookup tableXY (cstring "y") = some symbolY := by decide
  have hfirst : trialX.Literal (initialParser trialGen) trialFirst := by
    refine literal_atom rfl hs₁ hdeclare ?_ (by decide) (.inl rfl) (htable ▸ plainTable_tableX)
      (by decide) (htable ▸ hlookup) rfl
    unfold Settled
    decide
  obtain ⟨s', hs'⟩ : ∃ s', trialY.setup trialFirst = some s' := isSome_iff_exists.mp (by decide +kernel)
  have hsecond : trialY.Literal trialFirst s' := by
    refine literal_atom rfl hs' hdeclare' ?_ (by decide) (.inr ⟨rfl, symbolX, ?_, rfl⟩)
      (htable' ▸ plainTable_tableXY) (by decide +kernel) (htable' ▸ hlookupY) rfl
    · unfold Settled
      decide +kernel
    · rw [htable']
      exact hlookup'
  exact ⟨s', trialFirst, hfirst, s', hsecond, rfl⟩

def trialSum : Variable :=
  { name := cstring "x"
    type := .int
    init := [trialNumber 5, trialToken .tokPlus "+", trialNumber 3] }

def trialSumExpr : Expr := .binary .add (.num 5) (.num 3)

def assignSum : List Token :=
  trialToken .tokIdent "x" :: trialToken .tokAssign "=" :: (trialSum.init ++ [trialToken .tokSemicolon ";"])

theorem room_tableX {d : Nat} (hd : d ≤ 100) : Room tableX d trialCpu :=
  { words := by omega
    clear := fun {b} hb => by
      obtain ⟨x, sym, hsym, hb⟩ := hb
      obtain ⟨hmem, hlive, -⟩ := symtabLookup_spec hsym
      rw [tableX_entries hmem hlive] at hb
      have hebp : trialCpu.regs .ebp = 0x2000 := rfl
      have hesp : trialCpu.regs .esp = 0x1FF0 := rfl
      unfold Clear
      simp only [Owns, X86.Within, symbolX, newSymbol, symTypeSize, hebp, hesp] at hb ⊢
      bv_omega }

/-- `int x = 5 + 3;` leaves 5 in `x`, and `int x; x = 5 + 3;` leaves 8. -/
theorem not_exact_sum : ¬ ∃ s', Turns (trialToken .tokInt "int" :: assignSum) (initialParser trialGen)
    (s'.goto 7) ∧ Each Variable.Exact [trialSum] (initialParser trialGen) s' := by
  rintro ⟨s', -, s₁, hexact, -⟩
  obtain ⟨-, s₂, hdeclare, -, htakes⟩ :=
    (exact_iff_literal rfl (@Reached.start [] 0 0 trialGen).flat).mp hexact
  obtain ⟨hdeclare', htable⟩ := trialDeclared_x
  obtain rfl := some.inj (hdeclare'.symm.trans hdeclare)
  let d := trialDeclared (initialParser trialGen) "x"
  have hderives : Derives trialSumExpr trialSum.init :=
    Derives.binary .add (Derives.num (t := trialNumber 5) rfl) (by decide) rfl
      (Derives.num (t := trialNumber 3) rfl) (by decide)
  have hsum : ∀ tab, trialSumExpr.Declared tab := fun _ => ⟨trivial, trivial⟩
  have hstands : From assignSum 0 (trialToken .tokIdent "x" :: trialToken .tokAssign "=" ::
      (trialSum.init ++ trialToken .tokSemicolon ";" :: [])) := ⟨[], rfl, rfl⟩
  have hlookup : symtabLookup d.symtab (cstring "x") = some symbolX := by
    rw [htable]
    decide
  obtain ⟨s₃, g', hreturns, hpos, hturns, hout⟩ := @turns_assigned d _ symbolX _ _ _ _ _ _ _ _ hstands rfl
    (by decide +kernel) rfl rfl hderives (hsum _) (by decide +kernel) hlookup
    fun hident => nomatch hident
  have hassigned : trialSum.AssignedAt d assignSum 0 :=
    { initialized := cons_ne_nil _ _
      stands := ⟨_, _, _, _, hstands, rfl, rfl, rfl, rfl⟩
      accepted := ⟨0, g', hreturns, Int.le_refl 0, hpos⟩ }
  obtain ⟨s₄, t, bytes, hturns', ht, hout', hfirst⟩ := htakes assignSum 0 hassigned
  obtain rfl := some.inj ht
  obtain rfl : s₃ = s₄ := by
    obtain ⟨n, hn⟩ := hturns
    obtain ⟨m, hm⟩ := hturns'
    exact some.inj ((hn _ (Nat.le_max_left n m)).symm.trans (hm _ (Nat.le_max_right n m)))
  have hgen : d.gen = (initialParser trialGen).gen := (declare_spec hdeclare').2
  rw [hout, hgen] at hout'
  obtain rfl := append_cancel_left hout'
  have hsize : ∀ tab, (trialSumExpr.code tab ++ emitMovMemEbpEax symbolX.offset).length = 17 := fun _ => rfl
  have hcode := @X86.codeAt_placed (trialSumExpr.code d.symtab ++ emitMovMemEbpEax symbolX.offset)
    (by rw [hsize]; decide) 0
  let p : Platform :=
    { writable := fun _ => false
      syscall := fun _ => none }
  obtain ⟨c', hblock, -, -, hvalue, -⟩ :=
    hfirst p _ 0 trialCpu hcode (htable ▸ room_tableX (by rw [hsize]; decide))
  have hdecodes : Decodes (trialSumExpr.code d.symtab ++ emitMovMemEbpEax symbolX.offset)
      (trialSumExpr.instrs d.symtab ++ [.mov (slot symbolX) (.reg .eax)]) :=
    (Expr.decodes (hsum _)).append decodes_store_word
  obtain ⟨c₁, hexec, hstored⟩ : ∃ c₁, execAll (trialSumExpr.instrs d.symtab ++
      [.mov (slot symbolX) (.reg .eax)]) trialCpu = some c₁ ∧ c₁.get (slot symbolX) = 8 := ⟨_, rfl, rfl⟩
  obtain rfl := (Block.straight hdecodes hcode (by rw [hsize]; decide) hexec).unique hblock
  have hfive := hvalue symbolX hlookup
  rw [hstored] at hfive
  exact absurd hfive (by decide)

end Trial

end JexOs.Tcc
