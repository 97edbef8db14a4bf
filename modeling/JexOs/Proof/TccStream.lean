import JexOs.Proof.TccFrame

/-!
# Declarations and then assignments

The token streams of declarations that assignments follow, what every turn of the main loop does on them, and when
the frame that comes out is sound.
-/

namespace JexOs.Tcc

open X86 (Byte Word Touches)
open List Option

inductive Declarations : List Variable → List Token → Prop where
  | nil : Declarations [] []
  | cons {vs vs' : List Variable} {ts ts' : List Token} (h : Declaration vs ts)
      (hs : Declarations vs' ts') : Declarations (vs ++ vs') (ts ++ ts')

structure Assignment where
  name : CString
  op : TokenType
  rhs : List Token
deriving DecidableEq, Repr

def Assignment.words (a : Assignment) : List CString := assignedWords a.name a.op a.rhs

inductive Assigns (declared : CString → Prop) : Assignment → List Token → Prop where
  | mk {x op semi : Token} {rhs : List Token} (hx : x.type = .tokIdent) (hxd : declared x.str)
      (hop : op.type = .tokAssign ∨ (emitCompound op.type).isSome) (h : Phrase declared .expr rhs)
      (hsemi : semi.type = .tokSemicolon) :
      Assigns declared
        { name := x.str
          op := op.type
          rhs := rhs }
        (x :: op :: (rhs ++ [semi]))

inductive Assignments (declared : CString → Prop) : List Assignment → List Token → Prop where
  | nil : Assignments declared [] []
  | cons {a : Assignment} {as : List Assignment} {ts ts' : List Token} (h : Assigns declared a ts)
      (hs : Assignments declared as ts') : Assignments declared (a :: as) (ts ++ ts')

/-- The variables that the code accesses as words, whatever their types are. -/
def accessedWords (vs : List Variable) (as : List Assignment) : List CString :=
  vs.flatMap Variable.words ++ as.flatMap Assignment.words

section Remains

variable {tokens body rest ts : List Token} {t semi : Token} {s : Parser} {syms : List Symbol}

theorem matchTypes_body (types : List TokenType) (hsemi : semi.type ∉ types) :
    ∀ p body, From tokens p (body ++ semi :: rest) → ∃ matched, matchTypes tokens p types = some matched ∧
      (matched = true → ∃ front back, body = front ++ back ∧ front.map Token.type = types) := by
  induction types with
  | nil => exact fun p body _ => ⟨true, rfl, fun _ => ⟨[], body, rfl, rfl⟩⟩
  | cons type types ih =>
    intro p body hfrom
    rw [mem_cons, not_or] at hsemi
    unfold matchTypes
    cases body with
    | nil =>
      refine ⟨false, ?_, fun h => absurd h Bool.false_ne_true⟩
      rw [typeAt_from hfrom]
      exact if_neg hsemi.1
    | cons u body =>
      rw [typeAt_from hfrom]
      by_cases hu : u.type = type
      · obtain ⟨matched, hmatched, hfront⟩ := ih hsemi.2 (p + 1) body (From.tail hfrom)
        refine ⟨matched, (if_pos hu).trans hmatched, fun h => ?_⟩
        obtain ⟨front, back, rfl, htypes⟩ := hfront h
        exact ⟨u :: front, back, rfl, by rw [map_cons, hu, htypes]⟩
      · exact ⟨false, if_neg hu, fun h => absurd h Bool.false_ne_true⟩

theorem parseTurn_skip (hfrom : From tokens s.gen.pos (t :: rest))
    (ht : inExpression t.type = true ∧ t.type ≠ .tokIdent ∨ t.type = .tokSemicolon) (fuel : Nat) :
    parseTurn tokens fuel s = some (s.skip 1) := by
  have hident : t.type ≠ .tokIdent := by
    rcases ht with ht | ht
    · exact ht.2
    · rw [ht]
      decide
  have hname : ∀ name, ¬ (t.type = .tokIdent ∧ t.str = cstring name) := fun name hand => hident hand.1
  have htypes : t.type ≠ .tokInt ∧ t.type ≠ .tokChar ∧ t.type ≠ .tokVoid ∧ t.type ≠ .tokReturn ∧
      t.type ≠ .tokRbrace ∧ t.type ≠ .tokLbrace ∧ t.type ≠ .tokIf ∧ t.type ≠ .tokWhile ∧
      t.type ≠ .tokFor := by
    rcases ht with ht | ht
    · refine ⟨?_, ?_, ?_, ?_, ?_, ?_, ?_, ?_, ?_⟩ <;>
        · intro h
          rw [h] at ht
          exact nomatch ht.1
    · rw [ht]
      decide
  unfold parseTurn
  dsimp only
  rw [hfrom.head, some_bind, functionHead_other hfrom htypes.1 htypes.2.1 htypes.2.2.1, some_bind]
  rw [if_neg fun h => h.elim (hname "print") (hname "printf"), if_neg (hname "malloc")]
  simp only [some_bind, Bool.false_eq_true, if_false]
  obtain ⟨h₁, h₂, -, h₄, h₅, h₆, h₇, h₈, h₉⟩ := htypes
  split <;> first | rfl | contradiction

theorem parseTurn_ident (hident : t.type = .tokIdent)
    (hbody : ∀ u ∈ body, inExpression u.type = true) (hsemi : semi.type = .tokSemicolon)
    (hfrom : From tokens s.gen.pos (t :: (body ++ semi :: rest))) (fuel : Nat) : parseTurn tokens fuel s =
      (if t.str = cstring "malloc" then
        matchTypes tokens (s.gen.pos + 1) [.tokLparen, .tokNumber, .tokRparen]
      else some false).bind fun matched =>
        if matched then
          (tokens[s.gen.pos + 2]?).bind fun size =>
            some ((s.emit (emitMovEbxImm (BitVec.ofInt 32 size.intVal) ++ emitSyscall 7)).skip 4)
        else if t.str = cstring "asm" then parseAsm tokens s
        else parseNamed tokens fuel t.str s := by
  have hhead : functionHead tokens s.gen.pos = some none :=
    functionHead_other hfrom (by rw [hident]; decide) (by rw [hident]; decide) (by rw [hident]; decide)
  have hprint : matchTypes tokens (s.gen.pos + 1) [.tokLparen, .tokString] = some false := by
    obtain ⟨matched, hmatched, hfront⟩ := matchTypes_body [.tokLparen, .tokString]
      (by rw [hsemi]; decide) (s.gen.pos + 1) body (From.tail hfrom)
    cases matched with
    | false => exact hmatched
    | true =>
      obtain ⟨front, back, rfl, htypes⟩ := hfront rfl
      have hstring : TokenType.tokString ∈ front.map Token.type := by
        rw [htypes]
        decide
      obtain ⟨u, hu, htype⟩ := mem_map.mp hstring
      have hexpr := hbody u (mem_append_left _ hu)
      rw [htype] at hexpr
      exact nomatch hexpr
  unfold parseTurn
  dsimp only
  rw [hfrom.head, bind_eq_bind, bind_some, hhead, bind_eq_bind, bind_some]
  rw [hprint, ite_self]
  simp only [bind_eq_bind, bind_some, Bool.false_eq_true, if_false, hident, true_and]

def Leaves (tokens rest : List Token) (syms : List Symbol) (s : Parser) (n : Nat) (s' : Parser) : Prop :=
  ∃ remains, Emits syms [] s s' ∧ From tokens s'.gen.pos (remains ++ rest) ∧ Remains remains ∧
    remains.length ≤ n

theorem leaves_call (hbody : ∀ u ∈ body, inExpression u.type = true)
    (hsemi : semi.type = .tokSemicolon) (hparen : t.type = .tokLparen)
    (hfrom : From tokens (s.gen.pos + 1) (t :: (body ++ semi :: rest))) (name : CString) :
    ∃ s', Leaves tokens rest syms s (body.length + 1) s' ∧ parseCall tokens name s = some s' := by
  have hargs : From tokens (s.gen.pos + 2) (body ++ semi :: rest) := From.tail hfrom
  have hskip : skipStatement tokens (s.gen.pos + 1) = some (s.gen.pos + 1 + (t :: body).length + 1) := by
    refine @skipStatement_from _ _ (t :: body) _ _ hfrom (fun u hu => ?_) hsemi
    rcases mem_cons.mp hu with rfl | hu
    · rw [hparen]
      decide
    · exact body_of_inExpression hbody u hu
  have hrest : Leaves tokens rest syms s (body.length + 1)
      (s.goto (s.gen.pos + 1 + (t :: body).length + 1)) := by
    have hbehind : From tokens (s.gen.pos + 1 + (t :: body).length) (semi :: rest) :=
      From.advance (show From tokens (s.gen.pos + 1) ((t :: body) ++ semi :: rest) from hfrom)
    exact ⟨[], Emits.goto syms s _, hbehind.tail, .inl rfl, Nat.zero_le _⟩
  obtain ⟨arg, hargAt, hargType⟩ : ∃ arg, tokens[s.gen.pos + 2]? = some arg ∧
      (arg.type = .tokRparen → ∃ back, body = arg :: back) := by
    cases body with
    | nil =>
      refine ⟨semi, From.head hargs, fun h => ?_⟩
      rw [hsemi] at h
      exact nomatch h
    | cons u back => exact ⟨u, From.head hargs, fun _ => ⟨back, rfl⟩⟩
  obtain ⟨exits, hexits, hfront⟩ := matchTypes_body [.tokNumber, .tokRparen]
    (by rw [hsemi]; decide) (s.gen.pos + 2) body hargs
  unfold parseCall
  dsimp only
  rw [hargAt, some_bind]
  by_cases hgetpid : name = cstring "getpid" ∧ arg.type = .tokRparen
  · obtain ⟨back, rfl⟩ := hargType hgetpid.2
    obtain ⟨q, remains, hq, hleft, hremains, hlength⟩ := skipIf_remains (From.tail hargs)
      (fun u hu => hbody u (mem_cons_of_mem _ hu)) hsemi
    rw [if_pos hgetpid, hq]
    refine ⟨_, ⟨remains, (Emits.fits (fits_syscall 15) s).trans (Emits.goto syms _ q), hleft,
      hremains, ?_⟩, rfl⟩
    rw [length_cons]
    omega
  · rw [if_neg hgetpid]
    by_cases hexit : name = cstring "exit" ∧ exits = true
    · obtain ⟨front, back, rfl, htypes⟩ := hfront hexit.2
      have hcount : front.length = 2 := by
        rw [← length_map (f := Token.type), htypes]
        rfl
      have hbehind : From tokens (s.gen.pos + 4) (back ++ semi :: rest) := by
        rw [append_assoc] at hargs
        have hadvance := From.advance hargs
        rwa [hcount] at hadvance
      obtain ⟨q, remains, hq, hleft, hremains, hlength⟩ := skipIf_remains hbehind
        (fun u hu => hbody u (mem_append_right _ hu)) hsemi
      rw [if_pos hexit.1, hexits, hexit.2, some_bind, if_pos rfl, hq]
      refine ⟨_, ⟨remains, (Emits.fits ((fits_movEbx _).append (fits_syscall 1)) s).trans
        (Emits.goto syms _ q), hleft, hremains, ?_⟩, rfl⟩
      rw [length_append]
      omega
    · by_cases hname : name = cstring "exit"
      · have hno : exits = false := eq_false_of_ne_true fun h => hexit ⟨hname, h⟩
        rw [if_pos hname, hexits, hno, some_bind, if_neg Bool.false_ne_true, hskip]
        exact ⟨_, hrest, rfl⟩
      · rw [if_neg hname, some_bind, if_neg Bool.false_ne_true, hskip]
        exact ⟨_, hrest, rfl⟩

theorem leaves_ident (hquiet : Quiet rest) (hident : t.type = .tokIdent)
    (hbody : ∀ u ∈ body, inExpression u.type = true) (hsemi : semi.type = .tokSemicolon)
    (hfrom : From tokens s.gen.pos (t :: (body ++ semi :: rest)))
    (hskipped : Leaves tokens rest syms s (body.length + 1) (s.skip 1)) :
    ∃ s', Leaves tokens rest syms s (body.length + 1) s' ∧ Turns tokens s s' := by
  obtain ⟨matched, hmatched, hfront⟩ := matchTypes_body [.tokLparen, .tokNumber, .tokRparen]
    (by rw [hsemi]; decide) (s.gen.pos + 1) body (From.tail hfrom)
  have hturn := parseTurn_ident hident hbody hsemi hfrom
  rw [hmatched] at hturn
  by_cases hmalloc : t.str = cstring "malloc" ∧ matched = true
  · obtain ⟨front, back, rfl, htypes⟩ := hfront hmalloc.2
    obtain ⟨lp, size, rp, rfl⟩ := length_eq_three.mp
      ((length_map (f := Token.type)).symm.trans (congrArg List.length htypes))
    refine ⟨_, ⟨back ++ [semi], (Emits.fits ((fits_movEbx (BitVec.ofInt 32 size.intVal)).append
      (fits_syscall 7)) s).trans (Emits.goto syms _ (s.gen.pos + 4)), ?_, .inr ⟨back, semi, rfl, fun u hu =>
        hbody u (mem_append_right _ hu), hsemi⟩, ?_⟩, 0, fun k _ => ?_⟩
    · rw [append_assoc]
      exact From.tail (From.tail (From.tail (From.tail hfrom)))
    · rw [length_append, length_append, length_singleton]
      omega
    · have hsize : tokens[s.gen.pos + 2]? = some size := (From.tail (From.tail hfrom)).head
      rw [hturn, if_pos hmalloc.1, hmalloc.2, bind_some, if_pos rfl, hsize]
      rfl
  · have hother : ∀ k, parseTurn tokens k s =
        if t.str = cstring "asm" then parseAsm tokens s else parseNamed tokens k t.str s := by
      intro k
      have hno : (if t.str = cstring "malloc" then some matched else some false) = some false := by
        by_cases hname : t.str = cstring "malloc"
        · rw [if_pos hname, eq_false_of_ne_true fun h => hmalloc ⟨hname, h⟩]
        · exact if_neg hname
      rw [hturn, hno, bind_some, if_neg Bool.false_ne_true]
    by_cases hasm : t.str = cstring "asm"
    · have hfirst : t.type ≠ .tokSemicolon ∧ t.type ≠ .tokEof := by
        rw [hident]
        decide
      have hparse := parseAsm_quiet hquiet (forall_mem_cons.mpr ⟨hfirst, body_of_inExpression hbody⟩)
        (fun u hu h => by
          have hexpr := hbody u hu
          rw [h] at hexpr
          exact nomatch hexpr) hsemi hfrom
      have hbehind : From tokens s.gen.pos ((t :: body) ++ semi :: rest) := hfrom
      refine ⟨s.goto (s.gen.pos + (t :: body).length + 1),
        ⟨[], Emits.goto syms s _, hbehind.advance.tail, .inl rfl, Nat.zero_le _⟩, 0, fun k _ => ?_⟩
      rw [hother, if_pos hasm, hparse]
    · -- a name in an expression is skipped, or the call of a function
      obtain ⟨u, more, hu, hnext⟩ : ∃ u more, body ++ semi :: rest = u :: more ∧
          (u.type = .tokSemicolon ∨ inExpression u.type = true) := by
        cases body with
        | nil => exact ⟨semi, rest, rfl, .inl hsemi⟩
        | cons u back => exact ⟨u, _, rfl, .inr (hbody u mem_cons_self)⟩
      have hnamed : ∀ k, parseNamed tokens k t.str s =
          if u.type = .tokLparen then parseCall tokens t.str s else some (s.skip 1) := by
        intro k
        have hplace := hfrom.tail
        rw [hu] at hplace
        have hcompound : emitCompound u.type = none ∧ u.type ≠ .tokAssign := by
          revert hnext
          cases u.type <;> decide
        unfold parseNamed
        rw [typeAt_from hplace, some_bind, hcompound.1]
        exact if_neg hcompound.2
      by_cases hparen : u.type = .tokLparen
      · cases body with
        | nil =>
          obtain ⟨rfl, -⟩ := cons.inj hu
          rw [hsemi] at hparen
          exact nomatch hparen
        | cons v body =>
          obtain ⟨rfl, -⟩ := cons.inj hu
          obtain ⟨s', hleaves, hcall⟩ := @leaves_call _ _ _ _ _ _ syms
            (fun w hw => hbody w (mem_cons_of_mem _ hw)) hsemi hparen hfrom.tail t.str
          obtain ⟨remains, hemits, hplace, hremains, hlength⟩ := hleaves
          refine ⟨s', ⟨remains, hemits, hplace, hremains, Nat.le_succ_of_le hlength⟩, 0, fun k _ => ?_⟩
          rw [hother, if_neg hasm, hnamed, if_pos hparen, hcall]
      · exact ⟨_, hskipped, 0, fun k _ => by rw [hother, if_neg hasm, hnamed, if_neg hparen]⟩

theorem turns_remains (hquiet : Quiet rest) (h : Remains (t :: ts))
    (hfrom : From tokens s.gen.pos (t :: ts ++ rest)) :
    ∃ s', Leaves tokens rest syms s ts.length s' ∧ Turns tokens s s' := by
  obtain ⟨body, semi, hts, hbody, hsemi⟩ := h.resolve_left (cons_ne_nil t ts)
  cases body with
  | nil =>
    obtain ⟨rfl, rfl⟩ := cons.inj hts
    refine ⟨s.skip 1, ⟨[], Emits.goto syms s _, From.tail hfrom, .inl rfl, le_rfl⟩, 0,
      fun k _ => parseTurn_skip hfrom (.inr hsemi) k⟩
  | cons u body =>
    obtain ⟨rfl, htail⟩ := cons.inj hts
    obtain rfl : ts = body ++ [semi] := htail
    obtain ⟨ht, hbody⟩ := forall_mem_cons.mp hbody
    have hplace : From tokens s.gen.pos (t :: (body ++ semi :: rest)) := by
      rwa [cons_append, append_assoc] at hfrom
    have hlength : (body ++ [semi]).length = body.length + 1 := length_append
    -- the next token on
    have hskipped : Leaves tokens rest syms s (body ++ [semi]).length (s.skip 1) := by
      refine ⟨body ++ [semi], Emits.goto syms s _, ?_, .inr ⟨body, semi, rfl, hbody, hsemi⟩, le_rfl⟩
      rw [append_assoc]
      exact From.tail hplace
    by_cases hident : t.type = .tokIdent
    · rw [hlength] at hskipped ⊢
      exact leaves_ident hquiet hident hbody hsemi hplace hskipped
    · exact ⟨s.skip 1, hskipped, 0, fun k _ => parseTurn_skip hfrom (.inl ⟨ht, hident⟩) k⟩

end Remains

structure Compiled (vs : List Variable) (words : List CString) (s : Parser) : Prop where
  holds : Holds (layout 0 vs) (frameTotal vs) s
  locals : Locals (layout 0 vs)
  strings : s.stringTable = []
  prints : s.printPatches = []
  code : ∃ code as, s.gen.out = prologue ++ code ∧ Touches .ebp code as ∧
    Accounts (layout 0 vs) words as

section Compiled

variable {vs vs' : List Variable} {words words' : List CString} {s s' : Parser}

theorem initial_compiled (g : Gen) : Compiled [] [] (initialParser g) :=
  { holds :=
      { entries := rfl
        nextFree := rfl
        offset := rfl
        total := rfl }
    locals :=
      { scope := fun _ h => absurd h not_mem_nil
        names := nodup_nil
        count := Nat.zero_le _ }
    strings := rfl
    prints := rfl
    code := ⟨[], [], rfl, Touches.nil, Accounts.nil _⟩ }

theorem Compiled.emits (h : Compiled vs words s) (h' : Emits (layout 0 vs) words' s s') :
    Compiled vs (words ++ words') s' := by
  obtain ⟨code, as, hout, htouches, haccounts⟩ := h.code
  obtain ⟨code', as', hout', htouches', haccounts'⟩ := h'.code
  exact
    { holds := h'.holds h.holds
      locals := h.locals
      strings := h'.strings.trans h.strings
      prints := h'.prints.trans h.prints
      code := ⟨code ++ code', as ++ as', by rw [hout', hout, append_assoc],
        htouches.append htouches', haccounts.append haccounts'⟩ }

theorem Compiled.declares (h : Compiled vs words s)
    (h' : Declares (layout 0 vs) (layout (frameTotal vs) vs') (frameTotal vs)
      (frameTotal vs + frameTotal vs') words' s s') (hlocals : Locals (layout 0 (vs ++ vs'))) (i : Nat) :
    Compiled (vs ++ vs') (words ++ words') (s'.goto i) := by
  obtain ⟨code, as, hout, htouches, haccounts⟩ := h.code
  obtain ⟨code', as', hgen', htouches', haccounts'⟩ := h'.code
  have hlayout : layout 0 (vs ++ vs') = layout 0 vs ++ layout (frameTotal vs) vs' := by
    rw [layout_append, Nat.zero_add]
  have hholds := h'.holds
  rw [← hlayout, ← frameTotal_append] at hholds
  rw [← hlayout] at haccounts'
  have hsub : layout 0 vs ⊆ layout 0 (vs ++ vs') := by
    rw [hlayout]
    exact subset_append_left _ _
  exact
    { holds :=
        { entries := hholds.entries
          nextFree := hholds.nextFree
          offset := hholds.offset
          total := hholds.total }
      locals := hlocals
      strings := h'.strings.trans h.strings
      prints := h'.prints.trans h.prints
      code := by
        refine ⟨code ++ code', as ++ as', ?_, htouches.append htouches',
          (haccounts.mono hsub).append haccounts'⟩
        show s'.gen.out = _
        rw [hgen', ← append_assoc, ← hout] }

end Compiled

section Scopes

variable {vs vs' : List Variable} {known : List CString}

theorem scoped_append : Scoped known (vs ++ vs') ↔
    Scoped known vs ∧ Scoped (known ++ vs.map Variable.name) vs' := by
  induction vs generalizing known with
  | nil =>
    rw [map_nil, append_nil]
    exact ⟨fun h => ⟨trivial, h⟩, fun h => h.2⟩
  | cons v vs ih =>
    have hknown : known ++ [v.name] ++ vs.map Variable.name = known ++ (v :: vs).map Variable.name := by
      rw [append_assoc, map_cons]
      rfl
    constructor
    · rintro ⟨hv, hrest⟩
      obtain ⟨hvs, hvs'⟩ := ih.mp hrest
      exact ⟨⟨hv, hvs⟩, hknown ▸ hvs'⟩
    · rintro ⟨⟨hv, hvs⟩, hvs'⟩
      exact ⟨hv, ih.mpr ⟨hvs, hknown ▸ hvs'⟩⟩

theorem Scoped.nodup (h : Scoped known vs) (hknown : known.Nodup) : (known ++ vs.map Variable.name).Nodup := by
  induction vs generalizing known with
  | nil => rwa [map_nil, append_nil]
  | cons v vs ih =>
    have hnew : (known ++ [v.name]).Nodup := by
      rw [nodup_append]
      refine ⟨hknown, nodup_singleton _, fun a ha b hb hab => h.1.fresh ?_⟩
      rw [← mem_singleton.mp hb, ← hab]
      exact ha
    have hall := ih h.2 hnew
    rwa [append_assoc] at hall

theorem locals_layout (hscoped : Scoped [] vs) (hroom : vs.length ≤ symTableSize) : Locals (layout 0 vs) :=
  { scope := fun sym hmem => by
      obtain ⟨v, -, used, rfl⟩ := mem_layout hmem
      rfl
    names := by
      rw [layout_names]
      exact hscoped.nodup nodup_nil
    count := by rwa [length_layout] }

theorem Declarations.types {ts : List Token} (h : Declarations vs ts) :
    ∀ v ∈ vs, v.type = .int ∨ v.type = .char := by
  induction h with
  | nil => exact fun v hv => absurd hv not_mem_nil
  | cons h _ ih =>
    refine forall_mem_append.mpr ⟨fun v hv => ?_, ih⟩
    cases h with
    | int _ h => exact .inl (h.types v hv)
    | char _ h => exact .inr (h.types v hv)

theorem Declaration.ne_nil {ts : List Token} (h : Declaration vs ts) : vs ≠ [] ∧ ts ≠ [] := by
  have hmany : ∀ {type : SymType} {vs : List Variable} {ts : List Token},
      Declarators type vs ts → vs ≠ [] := by
    intro type vs ts h
    cases h <;> exact cons_ne_nil _ _
  cases h with
  | int _ h => exact ⟨hmany h, cons_ne_nil _ _⟩
  | char _ h => exact ⟨hmany h, cons_ne_nil _ _⟩

theorem simple_layout (htypes : ∀ v ∈ vs, v.type = .int ∨ v.type = .char)
    (used : Nat) : Simple (layout used vs) := by
  intro sym hmem
  obtain ⟨v, hv, used', rfl⟩ := mem_layout hmem
  exact ⟨htypes v hv, rfl⟩

end Scopes

section Assignment

variable {tokens ts rest : List Token} {s : Parser} {syms : List Symbol} {used : Nat}
  {declared : CString → Prop} {a : Assignment}

theorem Assigns.quiet (h : Assigns declared a ts) : ∀ t ∈ ts, t.type ≠ .tokString ∧ t.type ≠ .tokEof := by
  obtain ⟨hx, -, hop, hphrase, hsemi⟩ := h
  have hrhs := hphrase.inExpression
  refine forall_mem_cons.mpr ⟨by rw [hx]; decide, forall_mem_cons.mpr ⟨?_,
    forall_mem_append.mpr ⟨fun t ht => ?_, forall_mem_singleton.mpr (by rw [hsemi]; decide)⟩⟩⟩
  · rename_i op _ _
    revert hop
    cases op.type <;> decide
  · have hexpr := hrhs t ht
    revert hexpr
    cases t.type <;> decide

theorem Assignments.quiet {as : List Assignment} (h : Assignments declared as ts) :
    ∀ t ∈ ts, t.type ≠ .tokString ∧ t.type ≠ .tokEof := by
  induction h with
  | nil => exact fun t ht => absurd ht not_mem_nil
  | cons h _ ih => exact forall_mem_append.mpr ⟨h.quiet, ih⟩

theorem turns_assignment (hholds : Holds syms used s) (hsimple : Simple syms) (hlocals : Locals syms)
    (hdeclared : ∀ x, declared x → x ∈ syms.map Symbol.name) (h : Assigns declared a ts)
    (hquiet : Quiet rest) (hfrom : From tokens s.gen.pos (ts ++ rest)) :
    ∃ s' remains, Emits syms a.words s s' ∧ From tokens s'.gen.pos (remains ++ rest) ∧
      Remains remains ∧ remains.length < ts.length ∧ Turns tokens s s' := by
  have hstrings := h.quiet
  obtain ⟨hx, hxd, hop, hphrase, hsemi⟩ := h
  rename_i x op semi rhs
  have hplace : From tokens s.gen.pos (x :: op :: (rhs ++ semi :: rest)) := by
    rwa [cons_append, cons_append, append_assoc] at hfrom
  have hpos : ([] : List Token).length < (x :: op :: (rhs ++ [semi])).length := Nat.succ_pos _
  have hparen : op.type ≠ .tokLparen := by
    revert hop
    cases op.type <;> decide
  by_cases hasm : x.str = cstring "asm"
  · have hbody : Body (x :: op :: rhs) := by
      refine forall_mem_cons.mpr ⟨by rw [hx]; decide, forall_mem_cons.mpr ⟨?_,
        body_of_inExpression hphrase.inExpression⟩⟩
      revert hop
      cases op.type <;> decide
    have hparse := parseAsm_quiet hquiet hbody (fun u hu => (hstrings u (mem_cons_of_mem _ (by
      rcases mem_cons.mp hu with rfl | hu
      · exact mem_cons_self
      · exact mem_cons_of_mem _ (mem_append_left _ hu)))).1) hsemi hplace
    have hbehind : From tokens s.gen.pos ((x :: op :: rhs) ++ semi :: rest) := hplace
    have hwords : Assignment.words ⟨x.str, op.type, rhs⟩ = [] := if_pos hasm
    rw [hwords]
    refine ⟨s.goto (s.gen.pos + (x :: op :: rhs).length + 1), [], Emits.goto syms s _,
      hbehind.advance.tail, .inl rfl, hpos, 0, fun k _ => ?_⟩
    rw [parseTurn_name hplace hx hparen, if_pos hasm, hparse]
  · rcases hop with hop | hop
    · have hwords : Assignment.words ⟨x.str, op.type, rhs⟩ =
          if startsCall rhs && !startsGetpid rhs then [] else [x.str] :=
        (if_neg hasm).trans (if_pos hop)
      rw [hwords]
      cases hcall : startsCall rhs with
      | false =>
        obtain ⟨s', hemits, hleft, hturns⟩ := turns_value hholds hsimple hlocals hdeclared hx hxd hasm
          hphrase hsemi hplace hop hcall
        exact ⟨s', [], hemits, hleft, .inl rfl, hpos, hturns⟩
      | true =>
        cases hgetpid : startsGetpid rhs with
        | false =>
          obtain ⟨s', hemits, hleft, hturns⟩ := turns_skipped hholds hlocals hdeclared hx hxd hasm
            hphrase hsemi hplace hop hcall hgetpid
          exact ⟨s', [], hemits, hleft, .inl rfl, hpos, hturns⟩
        | true =>
          obtain ⟨s', remains, hemits, hleft, hremains, hturns, hlength⟩ := turns_getpid hholds
            hlocals hdeclared hx hxd hasm hphrase hsemi hplace hop hcall hgetpid
          exact ⟨s', remains, hemits, hleft, hremains, hlength, hturns⟩
    · obtain ⟨bytes, hbytes⟩ := isSome_iff_exists.mp hop
      have hplain : op.type ≠ .tokAssign := by
        intro h
        rw [h] at hbytes
        exact nomatch hbytes
      have hwords : Assignment.words ⟨x.str, op.type, rhs⟩ = [x.str, x.str] :=
        (if_neg hasm).trans (if_neg hplain)
      obtain ⟨s', hemits, hleft, hturns⟩ := turns_compound hholds hsimple hlocals hdeclared hx hxd hasm
        hphrase hsemi hplace hbytes
      rw [hwords]
      exact ⟨s', [], hemits, hleft, .inl rfl, hpos, hturns⟩

end Assignment

structure Stage (tokens rest : List Token) (vs vs₁ vs₂ : List Variable) (as as₁ as₂ : List Assignment)
    (ts : List Token) (s : Parser) : Prop where
  vars : vs = vs₁ ++ vs₂
  assigns : as = as₁ ++ as₂
  order : as₁ ≠ [] → vs₂ = []
  compiled : Compiled vs₁ (accessedWords vs₁ as₁) s
  place : From tokens s.gen.pos (ts ++ rest)
  left : ∃ remains dts ats, ts = remains ++ (dts ++ ats) ∧ Remains remains ∧
    (remains ≠ [] → vs₂ = [] ∧ dts = []) ∧ Declarations vs₂ dts ∧
    Assignments (fun x => x ∈ vs.map Variable.name) as₂ ats

section Run

variable {tokens rest ts : List Token} {vs vs₁ vs₂ : List Variable} {as as₁ as₂ : List Assignment}
  {s : Parser} {t : Token}

theorem Stage.turn (h : Stage tokens rest vs vs₁ vs₂ as as₁ as₂ (t :: ts) s) (hquiet : Quiet rest)
    (hscoped : Scoped [] vs) (htypes : ∀ v ∈ vs, v.type = .int ∨ v.type = .char)
    (hroom : vs.length ≤ symTableSize) :
    ∃ vs₁' vs₂' as₁' as₂' ts' s', Stage tokens rest vs vs₁' vs₂' as as₁' as₂' ts' s' ∧
      ts'.length ≤ ts.length ∧ Turns tokens s s' := by
  obtain ⟨remains, dts, ats, hts, hremains, hempty, hdts, hats⟩ := h.left
  have hquietRest : Quiet (ats ++ rest) := hquiet.append hats.quiet
  have hplace := h.place
  rw [hts] at hplace
  cases remains with
  | cons u remains =>
    -- what is left of an assignment
    obtain ⟨hvs₂, rfl⟩ := hempty (cons_ne_nil _ _)
    rw [nil_append, append_assoc] at hplace
    obtain ⟨s', ⟨remains', hemits, hleft, hremains', hlength⟩, hturns⟩ :=
      @turns_remains _ _ _ _ _ (layout 0 vs₁) hquietRest hremains hplace
    have hcompiled := h.compiled.emits hemits
    rw [append_nil] at hcompiled
    refine ⟨vs₁, vs₂, as₁, as₂, remains' ++ ats, s', ⟨h.vars, h.assigns, h.order, hcompiled, ?_,
      remains', [], ats, rfl, hremains', fun _ => ⟨hvs₂, rfl⟩, hdts, hats⟩, ?_, hturns⟩
    · rwa [append_assoc]
    · have hlen := congrArg List.length hts
      simp only [length_append, length_cons] at hlen ⊢
      omega
  | nil =>
    rw [nil_append] at hts hplace
    cases hdts with
    | @cons vs' vs'' ts₁ ts₂ hd hds =>
      have has₁ : as₁ = [] := by
        by_contra hne
        exact hd.ne_nil.1 (append_eq_nil_iff.mp (h.order hne)).1
      have hvars := h.vars
      rw [← append_assoc] at hvars
      have hscopes := hvars ▸ hscoped
      rw [scoped_append, scoped_append] at hscopes
      obtain ⟨⟨hscoped₁, hscoped'⟩, -⟩ := hscopes
      have hlength := congrArg List.length hvars
      rw [length_append, length_append] at hlength
      have hlocals : Locals (layout 0 (vs₁ ++ vs')) := by
        refine locals_layout (scoped_append.mpr ⟨hscoped₁, hscoped'⟩) ?_
        rw [length_append]
        omega
      rw [append_assoc, append_assoc] at hplace
      obtain ⟨s', hdeclares, hturns⟩ := turns_declaration hd hplace h.compiled.locals
        h.compiled.holds (by rw [length_layout]; omega) (by rwa [layout_names])
      have hcompiled := h.compiled.declares hdeclares hlocals (s.gen.pos + ts₁.length)
      have hwords : accessedWords vs₁ as₁ ++ vs'.flatMap Variable.words =
          accessedWords (vs₁ ++ vs') as₁ := by
        unfold accessedWords
        rw [has₁, flatMap_nil, append_nil, append_nil, flatMap_append]
      rw [hwords] at hcompiled
      refine ⟨vs₁ ++ vs', vs'', as₁, as₂, ts₂ ++ ats, s'.goto (s.gen.pos + ts₁.length),
        ⟨hvars, h.assigns, fun hne => absurd has₁ hne, hcompiled, ?_, [], ts₂, ats, rfl, .inl rfl,
          fun hne => absurd rfl hne, hds, hats⟩, ?_, hturns⟩
      · rw [append_assoc]
        exact hplace.advance
      · have hlen := congrArg List.length hts
        have hpos := length_pos_iff.mpr hd.ne_nil.2
        simp only [length_append, length_cons] at hlen ⊢
        omega
    | nil =>
      have hvs : vs = vs₁ := by
        rw [h.vars, append_nil]
      cases hats with
      | nil => exact nomatch hts
      | @cons a as' ts₁ ts₂ ha has =>
        rw [nil_append, append_assoc] at hplace
        have hdeclared : ∀ x, x ∈ vs.map Variable.name → x ∈ (layout 0 vs₁).map Symbol.name := by
          intro x hx
          rwa [layout_names, ← hvs]
        obtain ⟨s', remains, hemits, hleft, hremains, hlength, hturns⟩ :=
          turns_assignment h.compiled.holds (simple_layout (hvs ▸ htypes) 0) h.compiled.locals
            hdeclared ha (hquiet.append has.quiet) hplace
        have hcompiled := h.compiled.emits hemits
        have hwords : accessedWords vs₁ as₁ ++ a.words = accessedWords vs₁ (as₁ ++ [a]) := by
          unfold accessedWords
          rw [append_assoc, flatMap_append, flatMap_singleton]
        rw [hwords] at hcompiled
        refine ⟨vs₁, [], as₁ ++ [a], as', remains ++ ts₂, s', ⟨h.vars, ?_, fun _ => rfl, hcompiled,
          ?_, remains, [], ts₂, rfl, hremains, fun _ => ⟨rfl, rfl⟩, .nil, has⟩, ?_, hturns⟩
        · rw [h.assigns, append_assoc]
          rfl
        · rwa [append_assoc]
        · have hlen := congrArg List.length hts
          simp only [length_append, length_cons, length_nil] at hlen ⊢
          omega

theorem Remains.not_eof {remains : List Token} (h : Remains remains) : ∀ t ∈ remains, t.type ≠ .tokEof := by
  rcases h with rfl | ⟨body, semi, rfl, hbody, hsemi⟩
  · exact fun t ht => absurd ht not_mem_nil
  · refine forall_mem_append.mpr ⟨fun t ht => (body_of_inExpression hbody t ht).2,
      forall_mem_singleton.mpr ?_⟩
    rw [hsemi]
    decide

theorem Declarations.not_eof {dts : List Token} (h : Declarations vs dts) : ∀ t ∈ dts, t.type ≠ .tokEof := by
  have hmany : ∀ {type : SymType} {vs : List Variable} {ts : List Token},
      Declarators type vs ts → ∀ t ∈ ts, t.type ≠ .tokEof := by
    intro type vs ts h
    obtain ⟨body, semi, rfl, hbody, hsemi⟩ := h.body
    refine forall_mem_append.mpr ⟨fun t ht => (hbody t ht).2, forall_mem_singleton.mpr ?_⟩
    rw [hsemi]
    decide
  induction h with
  | nil => exact fun t ht => absurd ht not_mem_nil
  | cons h _ ih =>
    refine forall_mem_append.mpr ⟨?_, ih⟩
    cases h with
    | int ht h => exact forall_mem_cons.mpr ⟨by rw [ht]; decide, hmany h⟩
    | char ht h => exact forall_mem_cons.mpr ⟨by rw [ht]; decide, hmany h⟩

theorem Stage.not_eof (h : Stage tokens rest vs vs₁ vs₂ as as₁ as₂ ts s) : ∀ t ∈ ts, t.type ≠ .tokEof := by
  obtain ⟨remains, dts, ats, rfl, hremains, -, hdts, hats⟩ := h.left
  refine forall_mem_append.mpr ⟨hremains.not_eof, forall_mem_append.mpr ⟨hdts.not_eof, ?_⟩⟩
  exact fun t ht => (hats.quiet t ht).2

theorem Stage.finished (h : Stage tokens rest vs vs₁ vs₂ as as₁ as₂ [] s) : vs₂ = [] ∧ as₂ = [] := by
  obtain ⟨remains, dts, ats, hts, -, -, hdts, hats⟩ := h.left
  obtain ⟨-, hboth⟩ := append_eq_nil_iff.mp hts.symm
  obtain ⟨rfl, rfl⟩ := append_eq_nil_iff.mp hboth
  refine ⟨?_, ?_⟩
  · generalize hnil : ([] : List Token) = dts at hdts
    cases hdts with
    | nil => rfl
    | cons hd _ => exact absurd (append_eq_nil_iff.mp hnil.symm).1 hd.ne_nil.2
  · generalize hnil : ([] : List Token) = ats at hats
    cases hats with
    | nil => rfl
    | cons ha _ =>
      obtain ⟨hnone, -⟩ := append_eq_nil_iff.mp hnil.symm
      cases ha
      exact absurd hnone (cons_ne_nil _ _)

theorem Stage.loop {eof : Token} {behind : List Token} (heof : eof.type = .tokEof)
    (hscoped : Scoped [] vs) (htypes : ∀ v ∈ vs, v.type = .int ∨ v.type = .char)
    (hroom : vs.length ≤ symTableSize) (size n : Nat) :
    ∀ {ts : List Token} {vs₁ vs₂ : List Variable} {as₁ as₂ : List Assignment} {s : Parser},
      ts.length ≤ n → Stage tokens (eof :: behind) vs vs₁ vs₂ as as₁ as₂ ts s → ∃ vs₁' vs₂' as₁' as₂' ts' s',
        Stage tokens (eof :: behind) vs vs₁' vs₂' as as₁' as₂' ts' s' ∧
        (ts' = [] ∨ guard size ≤ s'.gen.out.length) ∧
        ∃ least, ∀ fuel, least ≤ fuel → ∀ m, least ≤ m → parseLoop tokens size fuel m s = some s' := by
  have hquiet : Quiet (eof :: behind) := ⟨[], eof, behind, rfl, heof, fun t ht => absurd ht not_mem_nil⟩
  -- the loop ends here
  have hstop : ∀ {ts : List Token} {vs₁ vs₂ : List Variable} {as₁ as₂ : List Assignment} {s : Parser},
      Stage tokens (eof :: behind) vs vs₁ vs₂ as as₁ as₂ ts s →
      (ts = [] ∨ guard size ≤ s.gen.out.length) →
      ∃ least, ∀ fuel, least ≤ fuel → ∀ m, least ≤ m → parseLoop tokens size fuel m s = some s := by
    intro ts vs₁ vs₂ as₁ as₂ s h hend
    refine ⟨1, fun fuel _ m hm => ?_⟩
    obtain ⟨m, rfl⟩ := Nat.exists_eq_succ_of_ne_zero (Nat.ne_zero_of_lt hm)
    obtain ⟨t, more, hmore⟩ : ∃ t more, ts ++ eof :: behind = t :: more := by
      cases ts with
      | nil => exact ⟨eof, behind, rfl⟩
      | cons t ts => exact ⟨t, _, rfl⟩
    have hplace := h.place
    rw [hmore] at hplace
    unfold parseLoop
    rw [typeAt_from hplace, some_bind]
    refine if_neg fun hand => ?_
    rcases hend with rfl | hfull
    · obtain ⟨rfl, -⟩ := cons.inj hmore
      exact hand.1 heof
    · exact absurd hand.2 (not_lt.mpr hfull)
  induction n with
  | zero =>
    intro ts vs₁ vs₂ as₁ as₂ s hn h
    obtain rfl := length_eq_zero_iff.mp (Nat.le_zero.mp hn)
    exact ⟨vs₁, vs₂, as₁, as₂, [], s, h, .inl rfl, hstop h (.inl rfl)⟩
  | succ n ih =>
    intro ts vs₁ vs₂ as₁ as₂ s hn h
    by_cases hend : ts = [] ∨ guard size ≤ s.gen.out.length
    · exact ⟨vs₁, vs₂, as₁, as₂, ts, s, h, hend, hstop h hend⟩
    · rw [not_or, not_le] at hend
      cases ts with
      | nil => exact absurd rfl hend.1
      | cons t ts =>
        obtain ⟨_, _, _, _, ts', s₁, h₁, hlength, first, hturn⟩ := h.turn hquiet hscoped htypes hroom
        obtain ⟨vs₁', vs₂', as₁', as₂', ts'', s', h', hend', least, hloop⟩ :=
          ih (hlength.trans (Nat.le_of_succ_le_succ hn)) h₁
        refine ⟨vs₁', vs₂', as₁', as₂', ts'', s', h', hend', max first (least + 1), fun fuel hfuel m hm => ?_⟩
        obtain ⟨m, rfl⟩ := Nat.exists_eq_succ_of_ne_zero
          (Nat.ne_zero_of_lt ((Nat.succ_pos least).trans_le (by omega : least + 1 ≤ m)))
        have htype : t.type ≠ .tokEof := h.not_eof t mem_cons_self
        unfold parseLoop
        rw [typeAt_from h.place, some_bind, if_pos ⟨htype, hend.2⟩, hturn fuel (by omega), some_bind]
        exact hloop fuel (by omega) m (by omega)

end Run

end JexOs.Tcc
