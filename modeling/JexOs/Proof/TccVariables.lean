import JexOs.Proof.TccPhrase
import JexOs.Proof.TccExec
import JexOs.Proof.TccAppend
import Mathlib.Data.List.Nodup

/-!
# Declarations

The variables of a token stream of declarations. An initializer is one token for the compiler, and names in the
rest of it are taken for declarations again.
-/

namespace JexOs.Tcc

open X86 (Byte Word Touches)
open List Option

structure Variable where
  name : CString
  type : SymType
  init : List Token
deriving DecidableEq, Repr

/-! ### Tokens -/

def Inner (t : Token) : Prop :=
  t.type ≠ .tokSemicolon ∧ t.type ≠ .tokEof ∧ t.type ≠ .tokAssign

inductive Declarator (type : SymType) : Variable → List Token → Prop where
  | plain {x : Token} (hx : x.type = .tokIdent) :
      Declarator type
        { name := x.str
          type := type
          init := [] }
        [x]
  | init {x eq v : Token} {ts : List Token} (hx : x.type = .tokIdent) (heq : eq.type = .tokAssign)
      (hv : Inner v) (hts : ∀ t ∈ ts, Inner t) :
      Declarator type
        { name := x.str
          type := type
          init := v :: ts }
        (x :: eq :: v :: ts)

inductive Declarators (type : SymType) : List Variable → List Token → Prop where
  | last {v : Variable} {ts : List Token} {semi : Token} (h : Declarator type v ts)
      (hsemi : semi.type = .tokSemicolon) : Declarators type [v] (ts ++ [semi])
  | more {v : Variable} {vs : List Variable} {ts ts' : List Token} {comma : Token}
      (h : Declarator type v ts) (hcomma : comma.type = .tokComma) (hs : Declarators type vs ts') :
      Declarators type (v :: vs) (ts ++ comma :: ts')

inductive Declaration : List Variable → List Token → Prop where
  | int {t : Token} {vs : List Variable} {ts : List Token} (ht : t.type = .tokInt)
      (h : Declarators .int vs ts) : Declaration vs (t :: ts)
  | char {t : Token} {vs : List Variable} {ts : List Token} (ht : t.type = .tokChar)
      (h : Declarators .char vs ts) : Declaration vs (t :: ts)

variable {vs : List Variable}

theorem Declarators.types {type : SymType} {ts : List Token}
    (h : Declarators type vs ts) : ∀ v ∈ vs, v.type = type := by
  have hone : ∀ {v : Variable} {ts : List Token}, Declarator type v ts → v.type = type := by
    intro v ts h
    cases h <;> rfl
  induction h with
  | last h _ => exact forall_mem_singleton.mpr (hone h)
  | more h _ _ ih => exact forall_mem_cons.mpr ⟨hone h, ih⟩

/-! ### The frame -/

def isIdent (t : Token) : Bool := decide (t.type = .tokIdent)

/-- The bytes of the frame that a declarator takes: the names behind the first token of the
initializer take as much again. -/
def Variable.space (v : Variable) : Nat := symTypeSize v.type * (1 + v.init.tail.countP isIdent)

def frameTotal (vs : List Variable) : Nat := (vs.map Variable.space).sum

def newSymbol (name : CString) (type : SymType) (used : Nat) : Symbol :=
  { name := name
    type := type
    baseType := .int
    offset := -4 - (used : Int)
    scopeLevel := 1
    arraySize := 0 }

def Variable.symbol (v : Variable) (used : Nat) : Symbol := newSymbol v.name v.type used

def layout : (used : Nat) → List Variable → List Symbol
  | _, [] => []
  | used, v :: vs => v.symbol used :: layout (used + v.space) vs

theorem length_layout (used : Nat) (vs : List Variable) : (layout used vs).length = vs.length := by
  induction vs generalizing used with
  | nil => rfl
  | cons v vs ih => rw [layout, length_cons, length_cons, ih]

theorem frameTotal_cons (v : Variable) (vs : List Variable) :
    frameTotal (v :: vs) = v.space + frameTotal vs := by
  unfold frameTotal
  rw [map_cons, sum_cons]

theorem layout_append (used : Nat) (vs vs' : List Variable) :
    layout used (vs ++ vs') = layout used vs ++ layout (used + frameTotal vs) vs' := by
  induction vs generalizing used with
  | nil => rfl
  | cons v vs ih =>
    rw [cons_append, layout, layout, cons_append, ih, frameTotal_cons, ← Nat.add_assoc]

theorem frameTotal_append (vs vs' : List Variable) :
    frameTotal (vs ++ vs') = frameTotal vs + frameTotal vs' := by
  unfold frameTotal
  rw [map_append, sum_append]

theorem layout_names (used : Nat) (vs : List Variable) :
    (layout used vs).map Symbol.name = vs.map Variable.name := by
  induction vs generalizing used with
  | nil => rfl
  | cons v vs ih => rw [layout, map_cons, map_cons, ih]; rfl

theorem mem_layout {used : Nat} {sym : Symbol} (h : sym ∈ layout used vs) :
    ∃ v ∈ vs, ∃ used', sym = v.symbol used' := by
  induction vs generalizing used with
  | nil => exact absurd h not_mem_nil
  | cons v vs ih =>
    rcases mem_cons.mp h with rfl | h
    · exact ⟨v, mem_cons_self, used, rfl⟩
    · obtain ⟨w, hw, used', hsym⟩ := ih h
      exact ⟨w, mem_cons_of_mem _ hw, used', hsym⟩

/-! ### The symbol table -/

/-- The table holds the symbols in order, and `used` bytes of the frame are taken. -/
structure Holds (syms : List Symbol) (used : Nat) (s : Parser) : Prop where
  entries : s.symtab.entries = syms ++ List.replicate (symTableSize - syms.length) emptySymbol
  nextFree : s.symtab.nextFree = syms.length % symTableSize
  offset : s.nextOffset = -4 - (used : Int)
  total : s.totalLocalSize = used

structure Locals (syms : List Symbol) : Prop where
  scope : ∀ sym ∈ syms, sym.scopeLevel = 1
  names : (syms.map Symbol.name).Nodup
  count : syms.length ≤ symTableSize

section Table

variable {syms : List Symbol} {used : Nat} {s : Parser} {sym : Symbol} {x : CString}

section

variable (h : Holds syms used s)

include h

theorem Holds.mem_of_lookup (hsym : symtabLookup s.symtab x = some sym) : sym ∈ syms ∧ sym.name = x := by
  obtain ⟨hmem, hlevel, hname⟩ := symtabLookup_spec hsym
  rw [h.entries] at hmem
  rcases mem_append.mp hmem with hmem | hmem
  · exact ⟨hmem, hname⟩
  · rw [eq_of_mem_replicate hmem] at hlevel
    exact absurd rfl hlevel

variable (hsyms : Locals syms)

include hsyms

theorem Holds.lookup (hmem : sym ∈ syms) : symtabLookup s.symtab sym.name = some sym := by
  have hfound : ∃ sym', symtabLookup s.symtab sym.name = some sym' := by
    cases hlookup : symtabLookup s.symtab sym.name with
    | some sym' => exact ⟨sym', rfl⟩
    | none =>
      have hnone := find?_eq_none.mp hlookup sym (by
        rw [mem_reverse, h.entries]
        exact mem_append_left _ hmem)
      simp [hsyms.scope sym hmem] at hnone
  obtain ⟨sym', hsym'⟩ := hfound
  obtain ⟨hmem', hname⟩ := h.mem_of_lookup hsym'
  rw [hsym', inj_on_of_nodup_map hsyms.names hmem' hmem hname]

theorem Holds.lookup_of_mem (hx : x ∈ syms.map Symbol.name) :
    ∃ sym ∈ syms, symtabLookup s.symtab x = some sym := by
  obtain ⟨sym, hmem, rfl⟩ := mem_map.mp hx
  exact ⟨sym, hmem, h.lookup hsyms hmem⟩

/-! ### A new local -/

theorem Holds.any_iff : (s.symtab.entries.any fun sym => sym.scopeLevel = 1 ∧ sym.name = x) = true ↔
      x ∈ syms.map Symbol.name := by
  rw [h.entries, List.any_eq_true]
  constructor
  · rintro ⟨sym, hmem, hsym⟩
    have hboth : sym.scopeLevel = 1 ∧ sym.name = x := by simpa using hsym
    rcases mem_append.mp hmem with hmem | hmem
    · exact mem_map.mpr ⟨sym, hmem, hboth.2⟩
    · rw [eq_of_mem_replicate hmem] at hboth
      exact absurd hboth.1 (by decide)
  · intro hx
    obtain ⟨sym, hmem, rfl⟩ := mem_map.mp hx
    exact ⟨sym, mem_append_left _ hmem, by simp [hsyms.scope sym hmem]⟩

omit hsyms in
theorem Holds.findFreeSlot (hroom : syms.length < symTableSize) :
    findFreeSlot s.symtab = some syms.length := by
  unfold Tcc.findFreeSlot
  have hrange : List.range symTableSize = 0 :: (List.range (symTableSize - 1)).map Nat.succ :=
    range_succ_eq_map
  rw [hrange, map_cons, h.nextFree, Nat.add_zero, Nat.mod_mod, Nat.mod_eq_of_lt hroom, find?_cons_of_pos]
  rw [h.entries, getElem?_append_right le_rfl, Nat.sub_self,
    getElem?_replicate_of_lt (Nat.sub_pos_of_lt hroom)]
  decide

theorem Holds.declare_old (hx : x ∈ syms.map Symbol.name) (type : SymType) :
    ∃ s', s.declare x type = some s' ∧ Holds syms (used + symTypeSize type) s' ∧
      s'.gen = s.gen ∧ s'.stringTable = s.stringTable ∧ s'.printPatches = s.printPatches := by
  have hadd : symtabAdd s.symtab x type s.nextOffset 1 = some (-1, s.symtab) := by
    unfold symtabAdd
    rw [if_neg (by decide), if_pos ((h.any_iff hsyms).mpr hx)]
  unfold Parser.declare
  rw [hadd]
  refine ⟨_, rfl, ?_, rfl, rfl, rfl⟩
  exact
    { entries := h.entries
      nextFree := h.nextFree
      offset := by
        change s.nextOffset - _ = _
        rw [h.offset]
        omega
      total := by
        rw [h.total] }

theorem Holds.declare_new (hx : x ∉ syms.map Symbol.name) (hshort : x.length ≤ 30)
    (hroom : syms.length < symTableSize) (type : SymType) : ∃ s', s.declare x type = some s' ∧
      Holds (syms ++ [newSymbol x type used]) (used + symTypeSize type) s' ∧
      s'.gen = s.gen ∧ s'.stringTable = s.stringTable ∧ s'.printPatches = s.printPatches := by
  have hany : ¬ (s.symtab.entries.any fun sym => sym.scopeLevel = 1 ∧ sym.name = x) = true :=
    fun hany => hx ((h.any_iff hsyms).mp hany)
  have hstored : strncpy x (symNameMax - 1) = some x := if_pos (Nat.lt_succ_of_le hshort)
  unfold Parser.declare symtabAdd
  rw [if_neg (by decide), if_neg hany, h.findFreeSlot hroom]
  rw [hstored]
  refine ⟨_, rfl, ?_, rfl, rfl, rfl⟩
  exact
    { entries := by
        rw [h.entries, set_append_right _ _ le_rfl, Nat.sub_self, append_assoc,
          length_append, h.offset]
        obtain ⟨m, hm⟩ : ∃ m, symTableSize - syms.length = m + 1 := ⟨symTableSize - syms.length - 1, by omega⟩
        have hless : symTableSize - (syms.length + [newSymbol x type used].length) = m := by
          rw [length_singleton]
          omega
        rw [hm, hless, replicate_succ]
        rfl
      nextFree := by rw [length_append]; rfl
      offset := by
        change s.nextOffset - _ = _
        rw [h.offset]
        omega
      total := by
        rw [h.total] }

end

theorem Locals.append (hsyms : Locals syms) (hx : x ∉ syms.map Symbol.name)
    (hroom : syms.length < symTableSize) (type : SymType)
    (used : Nat) : Locals (syms ++ [newSymbol x type used]) :=
  { scope := fun sym hmem => by
      rcases mem_append.mp hmem with hmem | hmem
      · exact hsyms.scope sym hmem
      · rw [mem_singleton.mp hmem]
        rfl
    names := by
      rw [map_append, nodup_append]
      refine ⟨hsyms.names, by simp, ?_⟩
      intro a ha b hb
      rw [mem_singleton.mp hb]
      rintro rfl
      exact hx ha
    count := by
      rw [length_append]
      exact hroom }

end Table

/-! ### What the code reads and writes -/

structure Accounts (syms : List Symbol) (words : List CString) (as : List (Word × Nat)) : Prop where
  sound : ∀ a ∈ as, ∃ sym ∈ syms, a.1 = BitVec.ofInt 32 sym.offset ∧
    (a.2 ≤ symTypeSize sym.type ∨ a.2 = 4 ∧ sym.name ∈ words)
  words : ∀ x ∈ words, ∃ sym ∈ syms, sym.name = x ∧ (BitVec.ofInt 32 sym.offset, 4) ∈ as

section Accounts

variable {syms syms' : List Symbol} {words words' : List CString} {as as' : List (Word × Nat)}

theorem Accounts.nil (syms : List Symbol) : Accounts syms [] [] :=
  { sound := fun _ h => absurd h not_mem_nil
    words := fun _ h => absurd h not_mem_nil }

theorem Accounts.append (h : Accounts syms words as) (h' : Accounts syms words' as') :
    Accounts syms (words ++ words') (as ++ as') :=
  { sound := fun a ha => by
      rcases mem_append.mp ha with ha | ha
      · obtain ⟨sym, hmem, hplace, hwide⟩ := h.sound a ha
        exact ⟨sym, hmem, hplace, hwide.imp_right fun h => ⟨h.1, mem_append_left _ h.2⟩⟩
      · obtain ⟨sym, hmem, hplace, hwide⟩ := h'.sound a ha
        exact ⟨sym, hmem, hplace, hwide.imp_right fun h => ⟨h.1, mem_append_right _ h.2⟩⟩
    words := fun x hx => by
      rcases mem_append.mp hx with hx | hx
      · obtain ⟨sym, hmem, hname, ha⟩ := h.words x hx
        exact ⟨sym, hmem, hname, mem_append_left _ ha⟩
      · obtain ⟨sym, hmem, hname, ha⟩ := h'.words x hx
        exact ⟨sym, hmem, hname, mem_append_right _ ha⟩ }

theorem Accounts.mono (h : Accounts syms words as) (hsub : syms ⊆ syms') : Accounts syms' words as :=
  { sound := fun a ha => by
      obtain ⟨sym, hmem, hrest⟩ := h.sound a ha
      exact ⟨sym, hsub hmem, hrest⟩
    words := fun x hx => by
      obtain ⟨sym, hmem, hrest⟩ := h.words x hx
      exact ⟨sym, hsub hmem, hrest⟩ }

theorem Accounts.word {sym : Symbol} (hmem : sym ∈ syms) :
    Accounts syms [sym.name] [(BitVec.ofInt 32 sym.offset, 4)] :=
  { sound := fun a ha => by
      rw [mem_singleton.mp ha]
      exact ⟨sym, hmem, rfl, .inr ⟨rfl, mem_singleton.mpr rfl⟩⟩
    words := fun x hx => by
      rw [mem_singleton.mp hx]
      exact ⟨sym, hmem, rfl, mem_singleton.mpr rfl⟩ }

end Accounts

section Loop

variable {tokens : List Token} {type : SymType} {j : Nat} {s s₁ s' : Parser} {t : Token}
  {rest : List Token}

def Loops (tokens : List Token) (type : SymType) (j : Nat) (s s' : Parser) : Prop :=
  ∃ n, ∀ k, n ≤ k → declareLoop tokens type k j s = some s'

def Enters (tokens : List Token) (type : SymType) (j : Nat) (s s' : Parser) : Prop :=
  ∃ p, skipIf tokens .tokComma j = some p ∧ Loops tokens type p s s'

section

variable (h : From tokens j (t :: rest))

include h

theorem typeAt_from : typeAt tokens j = some t.type := by
  unfold typeAt
  rw [h.head, map_some]

omit h in
theorem skipIf_from (type : TokenType) (h : From tokens j (t :: rest)) :
    skipIf tokens type j = some (if t.type = type then j + 1 else j) := by
  unfold skipIf
  rw [typeAt_from h]
  rfl

theorem loops_semicolon (ht : t.type = .tokSemicolon) (s : Parser) : Loops tokens type j s s := by
  refine ⟨1, fun k hk => ?_⟩
  obtain ⟨k, rfl⟩ : ∃ i, k = i + 1 := ⟨k - 1, by omega⟩
  unfold declareLoop
  rw [h.head]
  exact if_pos (.inl ht)

theorem loops_other (ht : Inner t) (hident : t.type ≠ .tokIdent)
    (hon : Enters tokens type (j + 1) s s') : Loops tokens type j s s' := by
  obtain ⟨p, hp, n, hn⟩ := hon
  refine ⟨n + 1, fun k hk => ?_⟩
  obtain ⟨k, rfl⟩ : ∃ i, k = i + 1 := ⟨k - 1, by omega⟩
  unfold declareLoop
  rw [h.head, some_bind, if_neg fun h => h.elim ht.1 ht.2.1, if_neg hident]
  change (skipIf tokens .tokComma (j + 1)).bind _ = _
  rw [hp]
  exact hn k (by omega)

theorem loops_name {j' : Nat} (hident : t.type = .tokIdent)
    (hname : declareName tokens type t.str j s = some (j', s₁))
    (hon : Enters tokens type (j' + 1) s₁ s') : Loops tokens type j s s' := by
  obtain ⟨p, hp, n, hn⟩ := hon
  refine ⟨n + 1, fun k hk => ?_⟩
  obtain ⟨k, rfl⟩ : ∃ i, k = i + 1 := ⟨k - 1, by omega⟩
  unfold declareLoop
  rw [h.head, some_bind, if_neg (by rw [hident]; decide), if_pos hident]
  rw [hname]
  change (skipIf tokens .tokComma (j' + 1)).bind _ = _
  rw [hp]
  exact hn k (by omega)

end

structure Separates (sep : Token) (rest : List Token) : Prop where
  type : sep.type = .tokSemicolon ∨ sep.type = .tokComma
  next : sep.type = .tokComma → ∃ x rest', rest = x :: rest' ∧ x.type = .tokIdent

def land (sep : Token) (j : Nat) : Nat := if sep.type = .tokComma then j + 1 else j

variable {sep : Token} {ts : List Token} {syms : List Symbol} {used : Nat} {vs : List Variable}

theorem enters_separator (h : From tokens j (sep :: rest))
    (hon : Loops tokens type (land sep j) s s') : Enters tokens type j s s' :=
  ⟨land sep j, skipIf_from _ h, hon⟩

theorem loops_separator (h : From tokens j (sep :: rest)) (hsep : Separates sep rest)
    (hon : Loops tokens type (land sep j) s s') : Loops tokens type j s s' := by
  rcases hsep.type with hsemi | hcomma
  · rw [land, if_neg (by rw [hsemi]; decide)] at hon
    exact hon
  · rw [land, if_pos hcomma] at hon
    obtain ⟨x, rest', rfl, hx⟩ := hsep.next hcomma
    have hinner : Inner sep := by
      unfold Inner
      rw [hcomma]
      decide
    refine loops_other h hinner (by rw [hcomma]; decide) ⟨j + 1, ?_, hon⟩
    rw [skipIf_from _ h.tail, if_neg (by rw [hx]; decide)]

structure SameCode (s s' : Parser) : Prop where
  gen : s'.gen = s.gen
  strings : s'.stringTable = s.stringTable
  prints : s'.printPatches = s.printPatches

/-- The names among the tokens are entered, one after the other. -/
def declareNames (type : SymType) (ts : List Token) (s : Parser) : Option Parser :=
  ts.foldlM (fun s t => if t.type = .tokIdent then s.declare t.str type else some s) s

def Variable.setup (v : Variable) (s : Parser) : Option Parser := do
  let s₁ ← s.declare v.name v.type
  match v.init with
  | [] => some s₁
  | t :: ts =>
    declareNames v.type ts
      (s₁.emit (emitInitializer s₁.symtab t ++ emitMovMemEbpEax s.nextOffset))

theorem declareNames_cons : declareNames type (t :: ts) s =
    (if t.type = .tokIdent then s.declare t.str type else some s).bind (declareNames type ts) :=
  foldlM_cons

theorem holds_declareNames (hsyms : Locals syms)
    (hholds : Holds syms used s) (hnames : ∀ t ∈ ts, t.type = .tokIdent → t.str ∈ syms.map Symbol.name) :
    ∃ s₁, declareNames type ts s = some s₁ ∧ Holds syms (used + symTypeSize type * ts.countP isIdent) s₁ ∧
      SameCode s s₁ := by
  induction ts generalizing s used with
  | nil => exact ⟨s, rfl, hholds, ⟨rfl, rfl, rfl⟩⟩
  | cons t ts ih =>
    have hlater : ∀ u ∈ ts, u.type = .tokIdent → u.str ∈ syms.map Symbol.name :=
      fun u hu => hnames u (mem_cons_of_mem _ hu)
    rw [declareNames_cons]
    by_cases hident : t.type = .tokIdent
    · obtain ⟨s₁, hdeclare, hholds₁, hgen, hstrings, hprints⟩ :=
        hholds.declare_old hsyms (hnames t mem_cons_self hident) type
      obtain ⟨s₂, hrest, hholds₂, hsame⟩ := ih hholds₁ hlater
      rw [if_pos hident, hdeclare]
      refine ⟨s₂, hrest, ?_, ⟨hsame.gen.trans hgen, hsame.strings.trans hstrings, hsame.prints.trans hprints⟩⟩
      rw [countP_cons_of_pos (by simpa [isIdent] using hident), Nat.mul_add, Nat.mul_one,
        Nat.add_comm (_ * _), ← Nat.add_assoc]
      exact hholds₂
    · obtain ⟨s₂, hrest, hholds₂, hsame⟩ := ih hholds hlater
      rw [if_neg hident]
      refine ⟨s₂, hrest, ?_, hsame⟩
      rw [countP_cons_of_neg (by simpa [isIdent] using hident)]
      exact hholds₂

/-- The variables accessed as words by the initializer, whatever their types are. -/
def Variable.words (v : Variable) : List CString :=
  match v.init with
  | [] => []
  | t :: _ => (if t.type = .tokIdent then [t.str] else []) ++ [v.name]

/-- The variable can be declared behind `known`: its name is new and fits, and its initializer names
variables that are declared. -/
structure Variable.Scoped (known : List CString) (v : Variable) : Prop where
  fresh : v.name ∉ known
  short : v.name.length ≤ 30
  init : ∀ t ∈ v.init, t.type = .tokIdent → t.str ∈ known ++ [v.name]

structure Declares (syms new : List Symbol) (used used' : Nat) (words : List CString) (s s' : Parser) :
    Prop where
  holds : Holds (syms ++ new) used' s'
  strings : s'.stringTable = s.stringTable
  prints : s'.printPatches = s.printPatches
  code : ∃ code as, s'.gen = { s.gen with out := s.gen.out ++ code } ∧
    Touches .ebp code as ∧ Accounts (syms ++ new) words as

theorem accesses_store (sym : Symbol) :
    Touches .ebp (emitMovMemEbpEax sym.offset) [(BitVec.ofInt 32 sym.offset, 4)] := by
  have hdecodes : X86.Decodes (emitMovMemEbpEax sym.offset) [.mov (slot sym) (.reg .eax)] := decodes_store_word
  exact hdecodes.touches

theorem accesses_loadWord (sym : Symbol) :
    Touches .ebp (emitMovEaxMemEbp sym.offset) [(BitVec.ofInt 32 sym.offset, 4)] := by
  have hdecodes : X86.Decodes (emitMovEaxMemEbp sym.offset) [.mov (.reg .eax) (slot sym)] :=
    decodes_ebp (fun field o => some (.mov (.reg (X86.regOf field)) o)) (fun _ => rfl) rfl
  exact hdecodes.touches

theorem accesses_immediate (v : Word) : Touches .ebp (emitMovEaxImm v) [] :=
  (decodes_immediate v).touches

theorem accounts_initializer (hsyms : Locals syms)
    (hholds : Holds syms used s) (hname : t.type = .tokIdent → t.str ∈ syms.map Symbol.name) :
    ∃ as, Touches .ebp (emitInitializer s.symtab t) as ∧
      Accounts syms (if t.type = .tokIdent then [t.str] else []) as := by
  by_cases hident : t.type = .tokIdent
  · obtain ⟨sym, hmem, hlookup⟩ := hholds.lookup_of_mem hsyms (hname hident)
    refine ⟨[(BitVec.ofInt 32 sym.offset, 4)], ?_, ?_⟩
    · unfold emitInitializer
      rw [hident]
      rw [hlookup]
      exact accesses_loadWord sym
    · rw [if_pos hident, ← (hholds.mem_of_lookup hlookup).2]
      exact Accounts.word hmem
  · rw [if_neg hident]
    refine ⟨[], ?_, Accounts.nil syms⟩
    unfold emitInitializer
    split
    · exact accesses_immediate _
    · exact absurd ‹_› hident
    · exact accesses_immediate _

theorem newSymbol_names (syms : List Symbol) (v : Variable) (used : Nat) :
    (syms ++ [v.symbol used]).map Symbol.name = syms.map Symbol.name ++ [v.name] := by
  rw [map_append]
  rfl

theorem declares_setup {v : Variable} (h : Declarator type v ts) (hsyms : Locals syms)
    (hholds : Holds syms used s)
    (hroom : syms.length < symTableSize) (hscoped : v.Scoped (syms.map Symbol.name)) :
    ∃ s₁, v.setup s = some s₁ ∧ Declares syms [v.symbol used] used (used + v.space) v.words s s₁ := by
  have hlocals := hsyms.append hscoped.fresh hroom v.type used
  obtain ⟨s₁, hdeclare, hholds₁, hgen, hstrings, hprints⟩ :=
    hholds.declare_new hsyms hscoped.fresh hscoped.short hroom v.type
  unfold Variable.setup
  rw [hdeclare, some_bind]
  cases h with
  | @plain x hx =>
    refine ⟨s₁, rfl, ⟨?_, hstrings, hprints, [], [], ?_, Touches.nil, Accounts.nil _⟩⟩
    · have hspace : used + Variable.space ⟨x.str, type, []⟩ = used + symTypeSize type := by
        unfold Variable.space
        rw [tail_nil, countP_nil, Nat.mul_one]
      rw [hspace]
      exact hholds₁
    · rw [hgen, append_nil]
  | @init x eq t ts hx heq hv hts =>
    have hnames : ∀ u ∈ t :: ts, u.type = .tokIdent →
        u.str ∈ (syms ++ [newSymbol x.str type used]).map Symbol.name := by
      intro u hu hident
      rw [map_append]
      exact hscoped.init u hu hident
    -- the code of the initializer, and the state behind it
    obtain ⟨as, htouches, haccounts⟩ := accounts_initializer hlocals hholds₁ (hnames t mem_cons_self)
    let code := emitInitializer s₁.symtab t ++ emitMovMemEbpEax s.nextOffset
    have hholds₂ : Holds (syms ++ [newSymbol x.str type used]) (used + symTypeSize type)
        (s₁.emit code) :=
      { entries := hholds₁.entries
        nextFree := hholds₁.nextFree
        offset := hholds₁.offset
        total := hholds₁.total }
    obtain ⟨s₂, hrest, hholds₃, hsame⟩ := holds_declareNames hlocals hholds₂
      fun u hu => hnames u (mem_cons_of_mem _ hu)
    have hword := Accounts.word (mem_append_right syms
      (mem_singleton.mpr (rfl : newSymbol x.str type used = newSymbol x.str type used)))
    have hstore := accesses_store (newSymbol x.str type used)
    rw [show (newSymbol x.str type used).offset = s.nextOffset from hholds.offset.symm] at hstore hword
    refine ⟨s₂, hrest, ⟨?_, hsame.strings.trans hstrings, hsame.prints.trans hprints, code,
      as ++ [(BitVec.ofInt 32 s.nextOffset, 4)], ?_, htouches.append hstore, haccounts.append hword⟩⟩
    · have hspace : used + Variable.space ⟨x.str, type, t :: ts⟩ =
          used + symTypeSize type + symTypeSize type * ts.countP isIdent := by
        unfold Variable.space
        rw [Nat.mul_add, Nat.mul_one, ← Nat.add_assoc]
        rfl
      rw [hspace]
      exact hholds₃
    · rw [hsame.gen]
      change { s₁.gen with out := s₁.gen.out ++ code } = _
      rw [hgen]

theorem Declares.trans {new new' : List Symbol} {used' used'' : Nat}
    {words words' : List CString} (h : Declares syms new used used' words s s₁)
    (h' : Declares (syms ++ new) new' used' used'' words' s₁ s') :
    Declares syms (new ++ new') used used'' (words ++ words') s s' := by
  obtain ⟨code, as, hgen, htouches, haccounts⟩ := h.code
  obtain ⟨code', as', hgen', htouches', haccounts'⟩ := h'.code
  rw [append_assoc] at haccounts'
  exact
    { holds := by
        rw [← append_assoc]
        exact h'.holds
      strings := h'.strings.trans h.strings
      prints := h'.prints.trans h.prints
      code := ⟨code ++ code', as ++ as', by rw [hgen', hgen, append_assoc],
        htouches.append htouches', (haccounts.mono (by
          rw [← append_assoc]
          exact subset_append_left _ _)).append haccounts'⟩ }

def Scoped : (known : List CString) → List Variable → Prop
  | _, [] => True
  | known, v :: vs => v.Scoped known ∧ Scoped (known ++ [v.name]) vs

theorem Declarators.starts (h : Declarators type vs ts) : ∃ x ts', ts = x :: ts' ∧ x.type = .tokIdent := by
  have hfirst : ∀ {v : Variable} {ts : List Token}, Declarator type v ts →
      ∃ x ts', ts = x :: ts' ∧ x.type = .tokIdent := by
    intro v ts h
    cases h with
    | plain hx => exact ⟨_, _, rfl, hx⟩
    | init hx _ _ _ => exact ⟨_, _, rfl, hx⟩
  cases h with
  | last h _ =>
    obtain ⟨x, ts', rfl, hx⟩ := hfirst h
    exact ⟨x, _, rfl, hx⟩
  | more h _ _ =>
    obtain ⟨x, ts', rfl, hx⟩ := hfirst h
    exact ⟨x, _, rfl, hx⟩

theorem declares_setups (h : Declarators type vs ts) (hsyms : Locals syms) (hholds : Holds syms used s)
    (hroom : syms.length + vs.length ≤ symTableSize) (hscoped : Scoped (syms.map Symbol.name) vs) :
    ∃ s', vs.foldlM (fun s v => v.setup s) s = some s' ∧
      Declares syms (layout used vs) used (used + frameTotal vs) (vs.flatMap Variable.words) s s' := by
  induction h generalizing syms used s with
  | last h hsemi =>
    obtain ⟨s₁, hsetup, hdeclares⟩ := declares_setup h hsyms hholds hroom hscoped.1
    refine ⟨s₁, by rw [foldlM_cons, hsetup]; rfl, ?_⟩
    simpa [layout, frameTotal] using hdeclares
  | @more v vs ts ts' comma h hcomma hs ih =>
    rw [length_cons] at hroom
    obtain ⟨s₁, hsetup, hdeclares⟩ := declares_setup h hsyms hholds (by omega) hscoped.1
    obtain ⟨s', hrest, hdeclares'⟩ := ih (hsyms.append hscoped.1.fresh (by omega) v.type used)
      hdeclares.holds (by
        rw [length_append, length_singleton]
        omega) (by
        have hnames := newSymbol_names syms v used
        unfold Variable.symbol at hnames
        rw [hnames]
        exact hscoped.2)
    refine ⟨s', by rw [foldlM_cons, hsetup]; exact hrest, ?_⟩
    rw [frameTotal_cons, ← Nat.add_assoc]
    exact hdeclares.trans hdeclares'

theorem loops_names (hsep : Separates sep rest) (hfrom : From tokens j (ts ++ sep :: rest))
    (hinner : ∀ t ∈ ts, Inner t) (hnames : declareNames type ts s = some s₁)
    (hon : Loops tokens type (land sep (j + ts.length)) s₁ s') :
    Loops tokens type j s s' ∧ Enters tokens type j s s' := by
  induction ts generalizing j s with
  | nil =>
    cases hnames
    exact ⟨loops_separator hfrom hsep hon, enters_separator hfrom hon⟩
  | cons t ts ih =>
    rw [declareNames_cons] at hnames
    obtain ⟨s₂, hfirst, hnames⟩ := bind_eq_some_iff.mp hnames
    have hlength : j + (t :: ts).length = j + 1 + ts.length := by
      rw [length_cons]
      omega
    rw [hlength] at hon
    obtain ⟨hloops, henters⟩ := ih (From.tail hfrom) (fun t ht => hinner t (mem_cons_of_mem _ ht)) hnames hon
    by_cases hident : t.type = .tokIdent
    · rw [if_pos hident] at hfirst
      have hname : declareName tokens type t.str j s = some (j, s₂) := by
        obtain ⟨u, more, hu, hassign⟩ : ∃ u more, ts ++ sep :: rest = u :: more ∧
            u.type ≠ .tokAssign := by
          cases ts with
          | nil =>
            refine ⟨sep, rest, rfl, ?_⟩
            rcases hsep.type with h | h <;> rw [h] <;> decide
          | cons u ts => exact ⟨u, _, rfl, (hinner u (by simp)).2.2⟩
        have hnext : From tokens (j + 1) (u :: more) := by
          rw [← hu]
          exact From.tail hfrom
        unfold declareName
        rw [hfirst, some_bind, typeAt_from hnext]
        exact if_neg hassign
      have hhere := loops_name hfrom hident hname henters
      refine ⟨hhere, j, ?_, hhere⟩
      rw [skipIf_from _ hfrom, if_neg (by rw [hident]; decide)]
    · rw [if_neg hident] at hfirst
      cases hfirst
      have hhere := loops_other hfrom (hinner t mem_cons_self) hident henters
      refine ⟨hhere, _, skipIf_from _ hfrom, ?_⟩
      split
      · exact hloops
      · exact hhere

theorem loops_declarator {v : Variable} (h : Declarator type v ts) (hfrom : From tokens j (ts ++ sep :: rest))
    (hsep : Separates sep rest) (hinit : v.setup s = some s₁)
    (hon : Loops tokens type (land sep (j + ts.length)) s₁ s') : Loops tokens type j s s' := by
  obtain ⟨s₂, hdeclare, hinit⟩ := bind_eq_some_iff.mp hinit
  cases h with
  | @plain x hx =>
    cases hinit
    have hname : declareName tokens type x.str j s = some (j, s₁) := by
      unfold declareName
      rw [hdeclare, some_bind, typeAt_from (From.tail hfrom)]
      refine if_neg ?_
      rcases hsep.type with h | h <;> rw [h] <;> decide
    exact loops_name hfrom hx hname (enters_separator (From.tail hfrom) hon)
  | @init x eq t ts hx heq hv hts =>
    have hbehind : From tokens (j + 3) (ts ++ sep :: rest) := From.tail (From.tail (From.tail hfrom))
    have hlength : j + (x :: eq :: t :: ts).length = j + 3 + ts.length := by
      simp only [length_cons]
      omega
    rw [hlength] at hon
    obtain ⟨-, henters⟩ := loops_names hsep hbehind hts hinit hon
    have hname : declareName tokens type x.str j s =
        some (j + 2, s₂.emit (emitInitializer s₂.symtab t ++ emitMovMemEbpEax s.nextOffset)) := by
      unfold declareName
      rw [hdeclare, some_bind, typeAt_from (From.tail hfrom)]
      refine (if_pos heq).trans ?_
      rw [(From.tail (From.tail hfrom)).head]
      rfl
    exact loops_name hfrom hx hname henters

theorem loops_declarators (h : Declarators type vs ts) (hfrom : From tokens j (ts ++ rest))
    (hinit : vs.foldlM (fun s v => v.setup s) s = some s') : Loops tokens type j s s' := by
  induction h generalizing j s with
  | @last v ts semi h hsemi =>
    obtain ⟨s₁, hs₁, hinit⟩ := bind_eq_some_iff.mp (foldlM_cons.symm.trans hinit)
    cases hinit
    have hsep : Separates semi rest :=
      { type := .inl hsemi
        next := fun hcomma => by
          rw [hsemi] at hcomma
          cases hcomma }
    rw [append_assoc] at hfrom
    have hland : land semi (j + ts.length) = j + ts.length := if_neg (by rw [hsemi]; decide)
    refine loops_declarator h hfrom hsep hs₁ ?_
    rw [hland]
    exact loops_semicolon hfrom.advance hsemi s'
  | @more v vs ts ts' comma h hcomma hs ih =>
    obtain ⟨s₁, hs₁, hinit⟩ := bind_eq_some_iff.mp (foldlM_cons.symm.trans hinit)
    obtain ⟨x, ts₂, hts', hx⟩ := hs.starts
    have hsep : Separates comma (ts' ++ rest) :=
      { type := .inr hcomma
        next := fun _ => ⟨x, ts₂ ++ rest, by rw [hts', cons_append], hx⟩ }
    rw [append_assoc, cons_append] at hfrom
    have hland : land comma (j + ts.length) = j + ts.length + 1 := if_pos hcomma
    refine loops_declarator h hfrom hsep hs₁ ?_
    rw [hland]
    exact ih hfrom.advance.tail hinit

end Loop

section Turn

variable {tokens : List Token} {s s' : Parser} {t : Token} {ts rest : List Token}

variable {p i used : Nat} {vs : List Variable} {type : SymType} {syms : List Symbol}

theorem skipTo_from {stops : List TokenType} (h : From tokens p (ts ++ t :: rest))
    (hts : ∀ u ∈ ts, u.type ∉ stops ∧ u.type ≠ .tokEof) (ht : t.type ∈ stops ∨ t.type = .tokEof) :
    skipTo tokens stops p = some (p + ts.length) := by
  obtain ⟨before, rfl, rfl⟩ := h
  unfold skipTo
  rw [drop_left]
  have hfind : ((ts ++ t :: rest).findIdx? fun t => decide (t.type ∈ stops ∨ t.type = .tokEof)) =
      some ts.length := by
    induction ts with
    | nil => rw [nil_append, findIdx?_cons, if_pos (decide_eq_true ht)]; rfl
    | cons u ts ih =>
      have hu := hts u mem_cons_self
      rw [cons_append, findIdx?_cons, if_neg (by simpa using hu),
        ih fun u hu => hts u (mem_cons_of_mem _ hu)]
      rfl
  rw [hfind]
  rfl

def Body (ts : List Token) : Prop := ∀ t ∈ ts, t.type ≠ .tokSemicolon ∧ t.type ≠ .tokEof

theorem skipStatement_from (h : From tokens p (ts ++ t :: rest)) (hts : Body ts)
    (ht : t.type = .tokSemicolon) : skipStatement tokens p = some (p + ts.length + 1) := by
  unfold skipStatement
  rw [skipTo_from h (fun u hu => ⟨by simpa using (hts u hu).1, (hts u hu).2⟩) (.inl (by simp [ht])),
    some_bind, skipIf_from _ h.advance, if_pos ht]

theorem Declarators.body (h : Declarators type vs ts) :
    ∃ body semi, ts = body ++ [semi] ∧ Body body ∧ semi.type = .tokSemicolon := by
  have hone : ∀ {v : Variable} {ts : List Token}, Declarator type v ts → Body ts := by
    intro v ts h
    cases h with
    | plain hx =>
      intro u hu
      rw [mem_singleton.mp hu, hx]
      decide
    | init hx heq hv hts =>
      intro u hu
      rcases mem_cons.mp hu with rfl | hu
      · rw [hx]; decide
      rcases mem_cons.mp hu with rfl | hu
      · rw [heq]; decide
      rcases mem_cons.mp hu with rfl | hu
      · exact ⟨hv.1, hv.2.1⟩
      · exact ⟨(hts u hu).1, (hts u hu).2.1⟩
  induction h with
  | last h hsemi => exact ⟨_, _, rfl, hone h, hsemi⟩
  | @more v vs ts ts' comma h hcomma _ ih =>
    obtain ⟨body, semi, rfl, hbody, hsemi⟩ := ih
    refine ⟨ts ++ comma :: body, semi, by rw [append_assoc, cons_append], ?_, hsemi⟩
    intro u hu
    rcases mem_append.mp hu with hu | hu
    · exact hone h u hu
    rcases mem_cons.mp hu with rfl | hu
    · rw [hcomma]; decide
    · exact hbody u hu

theorem Declarators.second (h : Declarators type vs ts) :
    ∃ x u ts', ts = x :: u :: ts' ∧ x.type = .tokIdent ∧ u.type ≠ .tokLparen := by
  have hone : ∀ {v : Variable} {ts : List Token} {sep : Token} {rest : List Token},
      Declarator type v ts → sep.type ≠ .tokLparen →
      ∃ x u ts', ts ++ sep :: rest = x :: u :: ts' ∧ x.type = .tokIdent ∧ u.type ≠ .tokLparen := by
    intro v ts sep rest h hsep
    cases h with
    | plain hx => exact ⟨_, _, _, rfl, hx, hsep⟩
    | init hx heq _ _ => exact ⟨_, _, _, rfl, hx, by rw [heq]; decide⟩
  cases h with
  | last h hsemi => exact hone h (by rw [hsemi]; decide)
  | more h hcomma _ => exact hone h (by rw [hcomma]; decide)

theorem functionHead_declaration {x u : Token} (h : From tokens i (t :: x :: u :: rest))
    (ht : t.type = .tokInt ∨ t.type = .tokChar) (hx : x.type = .tokIdent) (hu : u.type ≠ .tokLparen) :
    functionHead tokens i = some none := by
  have hkind : t.type = .tokInt ∨ t.type = .tokChar ∨ t.type = .tokVoid := by
    rcases ht with ht | ht
    · exact .inl ht
    · exact .inr (.inl ht)
  unfold functionHead
  rw [typeAt_from h, some_bind, if_pos hkind, typeAt_from h.tail, some_bind, if_neg (by rw [hx]; decide)]
  dsimp only
  rw [typeAt_from h.tail, some_bind, if_pos hx, typeAt_from h.tail.tail, some_bind, if_neg hu]

theorem functionHead_other (h : From tokens i (t :: rest)) (hint : t.type ≠ .tokInt)
    (hchar : t.type ≠ .tokChar) (hvoid : t.type ≠ .tokVoid) : functionHead tokens i = some none := by
  unfold functionHead
  rw [typeAt_from h, some_bind]
  exact if_neg fun h => h.elim hint fun h => h.elim hchar hvoid

def Turns (tokens : List Token) (s s' : Parser) : Prop :=
  ∃ n, ∀ k, n ≤ k → parseTurn tokens k s = some s'

theorem parseTurn_declaration {x u : Token} (h : From tokens s.gen.pos (t :: x :: u :: rest))
    (ht : t.type = .tokInt ∨ t.type = .tokChar) (hx : x.type = .tokIdent)
    (hu : u.type ≠ .tokLparen) (fuel : Nat) :
    parseTurn tokens fuel s = parseDeclaration tokens fuel (if t.type = .tokInt then .int else .char) s := by
  have hname : ∀ name, ¬ (t.type = .tokIdent ∧ t.str = cstring name) := by
    rintro name ⟨hident, -⟩
    rcases ht with ht | ht <;> rw [ht] at hident <;> cases hident
  unfold parseTurn
  dsimp only
  rw [h.head, some_bind, functionHead_declaration h ht hx hu, some_bind]
  rw [if_neg fun h => h.elim (hname "print") (hname "printf"), if_neg (hname "malloc")]
  rcases ht with ht | ht
  · rw [ht]
    rw [typeAt_from h.tail]
    exact if_pos hx
  · rw [ht]
    rw [typeAt_from h.tail]
    exact if_pos hx

theorem turns_of_loops (ht : t.type = .tokInt ∨ t.type = .tokChar)
    (htype : (if t.type = .tokInt then SymType.int else .char) = type) (h : Declarators type vs ts)
    (hat : From tokens s.gen.pos (t :: (ts ++ rest))) (hloops : Loops tokens type (s.gen.pos + 1) s s') :
    Turns tokens s (s'.goto (s.gen.pos + (t :: ts).length)) := by
  obtain ⟨n, hn⟩ := hloops
  obtain ⟨body, semi, hbody, hinner, hsemi⟩ := h.body
  obtain ⟨x, u, more, hsecond, hx, hu⟩ := h.second
  refine ⟨n, fun k hk => ?_⟩
  have hplace : From tokens s.gen.pos (t :: x :: u :: (more ++ rest)) := by
    rw [hsecond] at hat
    exact hat
  have hskip : skipStatement tokens s.gen.pos = some (s.gen.pos + (t :: ts).length) := by
    have hfrom : From tokens s.gen.pos ((t :: body) ++ semi :: rest) := by
      rw [hbody] at hat
      simpa using hat
    have hfront : Body (t :: body) := by
      intro v hv
      rcases mem_cons.mp hv with rfl | hv
      · rcases ht with ht | ht <;> rw [ht] <;> decide
      · exact hinner v hv
    rw [skipStatement_from hfrom hfront hsemi, hbody, ← cons_append, length_append,
      length_singleton, Nat.add_assoc]
  rw [parseTurn_declaration hplace ht hx hu, htype]
  unfold parseDeclaration
  dsimp only
  rw [hn k hk, some_bind, hskip]
  rfl

theorem turns_declarators (ht : t.type = .tokInt ∨ t.type = .tokChar)
    (htype : (if t.type = .tokInt then SymType.int else .char) = type) (h : Declarators type vs ts)
    (hat : From tokens s.gen.pos (t :: (ts ++ rest))) (hsyms : Locals syms) (hholds : Holds syms used s)
    (hroom : syms.length + vs.length ≤ symTableSize) (hscoped : Scoped (syms.map Symbol.name) vs) :
    ∃ s', Declares syms (layout used vs) used (used + frameTotal vs) (vs.flatMap Variable.words) s s' ∧
      Turns tokens s (s'.goto (s.gen.pos + (t :: ts).length)) := by
  obtain ⟨s', hsetups, hdeclares⟩ := declares_setups h hsyms hholds hroom hscoped
  exact ⟨s', hdeclares, turns_of_loops ht htype h hat (loops_declarators h hat.tail hsetups)⟩

theorem turns_declaration (h : Declaration vs ts) (hat : From tokens s.gen.pos (ts ++ rest))
    (hsyms : Locals syms)
    (hholds : Holds syms used s) (hroom : syms.length + vs.length ≤ symTableSize)
    (hscoped : Scoped (syms.map Symbol.name) vs) :
    ∃ s', Declares syms (layout used vs) used (used + frameTotal vs) (vs.flatMap Variable.words) s s' ∧
      Turns tokens s (s'.goto (s.gen.pos + ts.length)) := by
  cases h with
  | int ht h =>
    exact turns_declarators (.inl ht) (if_pos ht) h hat hsyms hholds hroom hscoped
  | char ht h =>
    exact turns_declarators (.inr ht) (if_neg (by rw [ht]; decide)) h hat hsyms hholds hroom hscoped

end Turn

end JexOs.Tcc
