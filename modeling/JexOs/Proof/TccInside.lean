import JexOs.Proof.TccCursor
import JexOs.Proof.TccOutput

/-!
# Where the compiler reads

A turn of the main loop that starts in front of the end comes back behind its first token, and not behind the end,
but for four statements: `return`, `print`, an initializer and a call.
-/

namespace JexOs.Tcc

open X86 (Byte Word wordBytes)
open List Option

/-! ### What is read as an argument -/

def takesArg : (format : CString) → Bool
  | [] => false
  | [_] => false
  | c :: spec :: rest =>
    if c = ch '%' then
      if spec = ch '%' then takesArg rest
      else if (specifierCall spec).isSome ∨ spec = ch 's' then true
      else takesArg (spec :: rest)
    else takesArg (spec :: rest)

structure PrintsAt (tokens : List Token) (i : Nat) (format : CString) : Prop where
  name : ∃ tok, tokens[i]? = some tok ∧ tok.type = .tokIdent ∧
    (tok.str = cstring "print" ∨ tok.str = cstring "printf")
  lparen : typeAt tokens (i + 1) = some .tokLparen
  string : ∃ tok, tokens[i + 2]? = some tok ∧ tok.type = .tokString ∧ tok.str = format

/-! ### Names that are stored -/

/-- `symtab_add` of a local refuses the name, or the name fits in its field. -/
def Storable (tab : Symtab) (name : CString) : Prop :=
  (∃ sym ∈ tab.entries, sym.scopeLevel = 1 ∧ sym.name = name) ∨ findFreeSlot tab = none ∨ name.length ≤ 30

/-- The declaration at `i` comes to token `j`, in this state. -/
inductive DeclaresAt (tokens : List Token) (type : SymType) (i : Nat)
    (s : Parser) : (j : Nat) → Parser → Prop where
  | first : DeclaresAt tokens type i s (i + 1) s
  | name {j j' k : Nat} {s₁ s₂ : Parser} {tok : Token} (h : DeclaresAt tokens type i s j s₁)
      (htok : tokens[j]? = some tok) (hident : tok.type = .tokIdent)
      (hname : declareName tokens type tok.str j s₁ = some (j', s₂))
      (hnext : skipIf tokens .tokComma (j' + 1) = some k) : DeclaresAt tokens type i s k s₂
  | other {j k : Nat} {s₁ : Parser} {tok : Token} (h : DeclaresAt tokens type i s j s₁)
      (htok : tokens[j]? = some tok) (hident : tok.type ≠ .tokIdent) (hsemi : tok.type ≠ .tokSemicolon)
      (heof : tok.type ≠ .tokEof) (hnext : skipIf tokens .tokComma (j + 1) = some k) :
      DeclaresAt tokens type i s k s₁

/-- Every name of the declaration fits in its field, and its initializer is not the end. -/
def DeclaresInside (tokens : List Token) (type : SymType) (i : Nat) (s : Parser) : Prop :=
  ∀ j s₁ tok, DeclaresAt tokens type i s j s₁ → tokens[j]? = some tok → tok.type = .tokIdent →
    Storable s₁.symtab tok.str ∧
    (typeAt tokens (j + 1) = some .tokAssign → typeAt tokens (j + 2) ≠ some .tokEof)

/-- The statement at `i` assigns to the name, or the head of a `for` does. -/
inductive AssignsAt (tokens : List Token) (i : Nat) : CString → Prop where
  | statement {tok : Token} (htok : tokens[i]? = some tok) (hident : tok.type = .tokIdent)
      (hasm : tok.str ≠ cstring "asm") (hassign : typeAt tokens (i + 1) = some .tokAssign) :
      AssignsAt tokens i tok.str
  | init {tok : Token} (hfor : typeAt tokens i = some .tokFor)
      (hlparen : typeAt tokens (i + 1) = some .tokLparen) (htok : tokens[i + 2]? = some tok)
      (hident : tok.type = .tokIdent) (hassign : typeAt tokens (i + 3) = some .tokAssign) :
      AssignsAt tokens i tok.str

/-! ### Expressions of a statement -/

def headOpened (s : Parser) : Parser :=
  ({ s with ctrl := { s.ctrl with loopTop := s.gen.out.length } }.skip 1).skip 1

/-- The statement at the token index calls `expr_parse`, with this table and at this token. -/
inductive EvaluatesAt (tokens : List Token) (fuel : Nat) (s : Parser) : Symtab → Gen → Prop where
  | compound {tok : Token} {next : TokenType} {op : List Byte} {sym : Symbol}
      (htok : tokens[s.gen.pos]? = some tok) (hident : tok.type = .tokIdent)
      (hasm : tok.str ≠ cstring "asm") (hnext : typeAt tokens (s.gen.pos + 1) = some next)
      (hop : emitCompound next = some op) (hsym : symtabLookup s.symtab tok.str = some sym) :
      EvaluatesAt tokens fuel s s.symtab { s.gen with pos := s.gen.pos + 2 }
  | assignment {tok rhs : Token} {sym : Symbol} {s₁ : Parser} (htok : tokens[s.gen.pos]? = some tok)
      (hident : tok.type = .tokIdent) (hasm : tok.str ≠ cstring "asm")
      (hassign : typeAt tokens (s.gen.pos + 1) = some .tokAssign)
      (hsym : lookupOrDeclare s tok.str = some (some sym, s₁))
      (hrhs : tokens[s.gen.pos + 2]? = some rhs)
      (hcall : ¬ (rhs.type = .tokIdent ∧ typeAt tokens (s.gen.pos + 3) = some .tokLparen)) :
      EvaluatesAt tokens fuel s s₁.symtab { s₁.gen with pos := s.gen.pos + 2 }
  | increment {tok : Token} (hrbrace : typeAt tokens s.gen.pos = some .tokRbrace)
      (hfor : s.ctrl.type = .forLoop) (hinner : s.braceDepth = s.ctrl.outerDepth + 1)
      (hpos : s.ctrl.incPos ≠ 0) (htok : tokens[s.ctrl.incPos]? = some tok)
      (hident : tok.type = .tokIdent) (hassign : typeAt tokens (s.ctrl.incPos + 1) = some .tokAssign) :
      EvaluatesAt tokens fuel s s.symtab { s.gen with pos := s.ctrl.incPos + 2 }
  | init {tok : Token} {sym : Symbol} {s₁ : Parser} (hfor : typeAt tokens s.gen.pos = some .tokFor)
      (hlparen : typeAt tokens (s.gen.pos + 1) = some .tokLparen)
      (htok : tokens[s.gen.pos + 2]? = some tok) (hident : tok.type = .tokIdent)
      (hassign : typeAt tokens (s.gen.pos + 3) = some .tokAssign)
      (hsym : lookupOrDeclare (headOpened s) tok.str = some (some sym, s₁)) :
      EvaluatesAt tokens fuel s s₁.symtab { s₁.gen with pos := s.gen.pos + 4 }
  | condition {next : TokenType}
      (hhead : typeAt tokens s.gen.pos = some .tokIf ∨ typeAt tokens s.gen.pos = some .tokWhile)
      (hlparen : typeAt tokens (s.gen.pos + 1) = some .tokLparen)
      (hnext : typeAt tokens (s.gen.pos + 2) = some next) (hrparen : next ≠ .tokRparen) :
      EvaluatesAt tokens fuel s s.symtab { s.gen with pos := s.gen.pos + 2 }
  | test {next : TokenType} {s₁ : Parser} (hfor : typeAt tokens s.gen.pos = some .tokFor)
      (hlparen : typeAt tokens (s.gen.pos + 1) = some .tokLparen)
      (hinit : parseForInit tokens fuel (headOpened s) = some s₁)
      (hnext : typeAt tokens s₁.gen.pos = some next) (hsemi : next ≠ .tokSemicolon)
      (hrparen : next ≠ .tokRparen) : EvaluatesAt tokens fuel s s₁.symtab s₁.gen

/-! ### Turns that stay inside -/

/-- No token behind the end is skipped or read by the statement at the token index, and every name that
it stores fits in its field. -/
structure TurnInside (tokens : List Token) (fuel : Nat) (s : Parser) : Prop where
  returns : typeAt tokens s.gen.pos = some .tokReturn →
    typeAt tokens (s.gen.pos + 1) ≠ some .tokEof ∧
    (typeAt tokens (s.gen.pos + 1) = some .tokNumber → typeAt tokens (s.gen.pos + 2) ≠ some .tokEof)
  prints : ∀ format, PrintsAt tokens s.gen.pos format → takesArg format = true →
    typeAt tokens (s.gen.pos + 3) ≠ some .tokEof
  declares : ∀ first, typeAt tokens s.gen.pos = some first → first = .tokInt ∨ first = .tokChar →
    typeAt tokens (s.gen.pos + 1) = some .tokIdent → typeAt tokens (s.gen.pos + 2) ≠ some .tokLparen →
    DeclaresInside tokens (if first = .tokInt then .int else .char) s.gen.pos s
  assigns : ∀ name, AssignsAt tokens s.gen.pos name → symtabLookup s.symtab name = none →
    Storable s.symtab name
  evaluates : ∀ tab g, EvaluatesAt tokens fuel s tab g → ExprInside tokens tab fuel false precNone g

def ComesBack {α : Type} (Q : α → Prop) (x : Option α) : Prop := ∃ a, x = some a ∧ Q a

section ComesBack

variable {α β : Type} {P : α → Prop} {Q : β → Prop} {x y : Option β} {b : β}

theorem ComesBack.result (h : Q b) : ComesBack Q (some b) := ⟨b, rfl, h⟩

theorem ComesBack.bind {x : Option α} {f : α → Option β} (h : ComesBack P x)
    (hf : ∀ a, x = some a → P a → ComesBack Q (f a)) : ComesBack Q (x >>= f) := by
  obtain ⟨a, rfl, ha⟩ := h
  exact hf a rfl ha

theorem ComesBack.ite {c : Prop} [Decidable c] (h : c → ComesBack Q x) (h' : ¬c → ComesBack Q y) :
    ComesBack Q (if c then x else y) := by
  split
  · exact h ‹_›
  · exact h' ‹_›

end ComesBack

section Skips

variable {tokens : List Token} {e p : Nat}

variable (h : EndsAt tokens e)

include h

theorem EndsAt.typeAt_read (hp : p ≤ e) : ∃ type, typeAt tokens p = some type ∧ (type ≠ .tokEof → p < e) := by
  obtain ⟨tok, htok, hlt⟩ := h.read hp
  exact ⟨tok.type, typeAt_eq htok, hlt⟩

theorem EndsAt.lt_of_typeAt {type : TokenType} (htype : typeAt tokens p = some type)
    (hne : type ≠ .tokEof) : p < e := by
  obtain ⟨tok, htok, rfl⟩ := map_eq_some_iff.mp htype
  exact h.lt_of_read htok hne

theorem skipTo_stops (hp : p ≤ e) (stops : List TokenType) :
    ∃ q, skipTo tokens stops p = some q ∧ p ≤ q ∧ q ≤ e ∧
      ∃ type, typeAt tokens q = some type ∧ (type ∈ stops ∨ type = .tokEof) := by
  obtain ⟨last, hlast, hltype⟩ := map_eq_some_iff.mp h.eof
  cases hfind : (tokens.drop p).findIdx? fun t => decide (t.type ∈ stops ∨ t.type = .tokEof) with
  | none =>
    have hmiss := findIdx?_eq_none_iff.mp hfind last (by
      refine mem_of_getElem? (i := e - p) ?_
      rw [getElem?_drop, Nat.add_sub_cancel' hp, hlast])
    rw [hltype] at hmiss
    simp at hmiss
  | some k =>
    obtain ⟨hk, hstop, -⟩ := findIdx?_eq_some_iff_getElem.mp hfind
    rw [getElem_drop] at hstop
    rw [length_drop] at hk
    have hread : tokens[p + k]? = some tokens[p + k] := getElem?_eq_getElem (by omega)
    refine ⟨p + k, ?_, Nat.le_add_right p k, h.le_of_read hread, _, typeAt_eq hread, of_decide_eq_true hstop⟩
    unfold skipTo
    rw [hfind]
    rfl

theorem skipIf_moves (hp : p ≤ e) (type : TokenType) (hne : type ≠ .tokEof) :
    ∃ q, skipIf tokens type p = some q ∧ p ≤ q ∧ q ≤ e ∧ (typeAt tokens p = some type → q = p + 1) := by
  obtain ⟨found, hfound, hlt⟩ := h.typeAt_read hp
  unfold skipIf
  rw [hfound, some_bind]
  by_cases heq : found = type
  · rw [if_pos heq]
    exact ⟨p + 1, rfl, Nat.le_succ p, hlt (heq ▸ hne), fun _ => rfl⟩
  · rw [if_neg heq]
    exact ⟨p, rfl, Nat.le_refl p, hp, fun hsame => absurd (some.inj hsame) heq⟩

theorem skipStatement_moves (hp : p ≤ e) :
    ∃ q, skipStatement tokens p = some q ∧ p ≤ q ∧ q ≤ e ∧ (typeAt tokens p ≠ some .tokEof → p < q) := by
  obtain ⟨k, hskip, hlow, hhigh, type, htype, hstop⟩ := skipTo_stops h hp [.tokSemicolon]
  obtain ⟨q, hq, hle, hend, hsemi⟩ := skipIf_moves h hhigh .tokSemicolon (by decide)
  unfold skipStatement
  rw [hskip, some_bind]
  refine ⟨q, hq, by omega, hend, fun hnot => ?_⟩
  rcases hstop with hstop | heof
  · rw [mem_singleton.mp hstop] at htype
    rw [hsemi htype]
    omega
  · have hne : k ≠ p := by
      rintro rfl
      exact hnot (heof ▸ htype)
    omega

theorem matchTypes_moves (types : List TokenType) (hne : .tokEof ∉ types)
    (hp : p ≤ e) : ∃ b, matchTypes tokens p types = some b ∧ (b = true → p + types.length ≤ e ∧
      ∀ k type, types[k]? = some type → typeAt tokens (p + k) = some type) := by
  induction types generalizing p with
  | nil => exact ⟨true, rfl, fun _ => ⟨hp, fun k type hk => by cases hk⟩⟩
  | cons type types ih =>
    obtain ⟨hfirst, hrest⟩ := not_or.mp fun hmem => hne (mem_cons.mpr hmem)
    obtain ⟨found, hfound, hlt⟩ := h.typeAt_read hp
    rw [matchTypes, hfound, some_bind]
    by_cases heq : found = type
    · rw [if_pos heq]
      obtain ⟨b, hb, hmatch⟩ := ih hrest (p := p + 1) (hlt (heq ▸ Ne.symm hfirst))
      refine ⟨b, hb, fun htrue => ?_⟩
      obtain ⟨hle, htypes⟩ := hmatch htrue
      refine ⟨by rw [length_cons]; omega, fun k t hk => ?_⟩
      cases k with
      | zero =>
        cases hk
        exact heq ▸ hfound
      | succ k =>
        rw [show p + (k + 1) = p + 1 + k by omega]
        exact htypes k t hk
    · rw [if_neg heq]
      exact ⟨false, rfl, fun h => nomatch h⟩

end Skips

section Turn

variable {tokens : List Token} {tab : Symtab} {e fuel : Nat} {s s' : Parser} {name : CString}

variable {type : SymType} {p i j : Nat}

theorem Storable.symtabAdd {offset : Int} (h : Storable tab name) :
    ∃ r tab', symtabAdd tab name type offset 1 = some (r, tab') := by
  unfold Tcc.symtabAdd
  rw [if_neg (by decide)]
  by_cases htwice : (tab.entries.any fun sym => sym.scopeLevel = 1 ∧ sym.name = name) = true
  · rw [if_pos htwice]
    exact ⟨-1, tab, rfl⟩
  · rw [if_neg htwice]
    cases hfree : findFreeSlot tab with
    | none => exact ⟨-1, tab, rfl⟩
    | some idx =>
      rcases h with ⟨sym, hmem, hscope, hname⟩ | hfull | hshort
      · exact absurd (any_eq_true.mpr ⟨sym, hmem, by simp [hscope, hname]⟩) htwice
      · rw [hfree] at hfull
        cases hfull
      · unfold strncpy
        rw [if_pos (hshort.trans_lt (by decide))]
        exact ⟨0, _, rfl⟩

structure Stays (s s' : Parser) : Prop where
  pos : s'.gen.pos = s.gen.pos
  ctrl : s'.ctrl = s.ctrl

theorem Storable.declare (h : Storable s.symtab name) : ∃ s', s.declare name type = some s' ∧ Stays s s' := by
  obtain ⟨r, tab', hadd⟩ := @Storable.symtabAdd s.symtab name type s.nextOffset h
  unfold Parser.declare
  rw [hadd]
  exact ⟨_, rfl, ⟨rfl, rfl⟩⟩

theorem lookupOrDeclare_stays (h : symtabLookup s.symtab name = none → Storable s.symtab name) :
    ComesBack (fun r => Stays s r.2) (lookupOrDeclare s name) := by
  unfold lookupOrDeclare
  cases hsym : symtabLookup s.symtab name with
  | some sym => exact .result ⟨rfl, rfl⟩
  | none => exact .bind (Storable.declare (h hsym)) fun s' _ hstays => .result hstays

variable (hend : EndsAt tokens e) (hfuel : 40 * (e + 1) + 1 ≤ fuel)

include hend hfuel

theorem parseAt_halts (hp : p ≤ e)
    (hin : ExprInside tokens s.symtab fuel false precNone { s.gen with pos := p }) :
    ComesBack (fun r => p ≤ r.2.1 ∧ r.2.1 ≤ e ∧ Stays s r.2.2) (parseAt tokens fuel s p) := by
  obtain ⟨r, g, hexpr, hlow, hhigh, -⟩ := exprParse_halts hend (g := { s.gen with pos := p }) hp
    (show 40 * (e + 1 - p) + 1 ≤ fuel by omega) hin
  unfold parseAt
  rw [hexpr]
  exact .result ⟨hlow, hhigh, ⟨rfl, rfl⟩⟩

/-! ### Statements -/

def Advances (e i : Nat) (result : Option Parser) : Prop :=
  ComesBack (fun s' => i < s'.gen.pos ∧ s'.gen.pos ≤ e ∧ s'.ctrl.incPos ≤ e) result

omit hfuel in
theorem Advances.skipStatement (hinc : s.ctrl.incPos ≤ e) (hp : p ≤ e)
    (hmoved : i < p ∨ i = p ∧ typeAt tokens p ≠ some .tokEof) :
    Advances e i (do some (s.goto (← skipStatement tokens p))) := by
  obtain ⟨q, hq, hlow, hhigh, hpast⟩ := skipStatement_moves hend hp
  rw [hq]
  refine ⟨s.goto q, rfl, ?_, hhigh, hinc⟩
  rcases hmoved with hlt | ⟨rfl, hne⟩
  · exact hlt.trans_le hlow
  · exact hpast hne

omit hend hfuel in
theorem Advances.goto (hinc : s.ctrl.incPos ≤ e) (hlow : i < p) (hhigh : p ≤ e) :
    Advances e i (some (s.goto p)) := ⟨s.goto p, rfl, hlow, hhigh, hinc⟩

omit hfuel in
theorem Advances.skipIf {type : TokenType} (hinc : s.ctrl.incPos ≤ e) (hp : p ≤ e)
    (hne : type ≠ .tokEof) (hlow : i < p) : Advances e i (do some (s.goto (← skipIf tokens type p))) := by
  obtain ⟨q, hq, hle, hhigh, -⟩ := skipIf_moves hend hp type hne
  rw [hq]
  exact ⟨s.goto q, rfl, hlow.trans_le hle, hhigh, hinc⟩

omit hfuel in
theorem locateArg_stops (hp : p ≤ e) (n : Nat) : ∃ q, locateArg tokens n p = some q ∧ q ≤ e := by
  induction n generalizing p with
  | zero => exact ⟨p, rfl, hp⟩
  | succ n ih =>
    obtain ⟨q, hq, -, hhigh, -⟩ := skipTo_stops hend hp [.tokComma, .tokRparen]
    obtain ⟨k, hk, -, hhigh', -⟩ := skipIf_moves hend hhigh .tokComma (by decide)
    rw [locateArg, hq, some_bind, hk]
    exact ih hhigh'

omit hend hfuel in
theorem Stays.refl (s : Parser) : Stays s s := ⟨rfl, rfl⟩

omit hend hfuel in
theorem Stays.trans {s'' : Parser} (h : Stays s s') (h' : Stays s' s'') : Stays s s'' :=
  ⟨h'.pos.trans h.pos, h'.ctrl.trans h.ctrl⟩

omit hend hfuel in
theorem Stays.inc (h : Stays s s') (hinc : s.ctrl.incPos ≤ e) : s'.ctrl.incPos ≤ e := by
  rw [h.ctrl]
  exact hinc

omit hend hfuel in
theorem Stays.emit (s : Parser) (bytes : List Byte) : Stays s (s.emit bytes) := ⟨rfl, rfl⟩

omit hend hfuel in
theorem Stays.patch (s : Parser) (at' : Nat) (value : Word) : Stays s (s.patch at' value) := ⟨rfl, rfl⟩

omit hend hfuel in
theorem stays_emitPrint (s : Parser) (text : CString) : Stays s (emitPrint s text) := by
  unfold emitPrint
  split <;> exact ⟨rfl, rfl⟩

omit hend hfuel in
theorem stays_emitLiteral (s : Parser) (text : CString) : Stays s (emitLiteral s text) := by
  unfold emitLiteral
  split
  · exact .refl s
  · exact stays_emitPrint s text

omit hend hfuel in
theorem stays_emitStringArg (s : Parser) (tok : Token) : Stays s (emitStringArg s tok) := by
  unfold emitStringArg
  split
  · exact stays_emitPrint s tok.str
  · exact .emit s _
  · exact .refl s

omit hend hfuel in
theorem Stays.behind {x : Option Parser} (h : Stays s s') (hx : ComesBack (Stays s') x) :
    ComesBack (Stays s) x :=
  hx.imp fun _ h' => ⟨h'.1, h.trans h'.2⟩

omit hfuel in
theorem formatLoop_stays (first : Nat) (format : CString) (argIdx : Nat) (text : CString) (s : Parser) :
    (takesArg format = true → first ≤ e) →
    ComesBack (Stays s) (formatLoop tokens first format argIdx text s) := by
  have hliteral := stays_emitLiteral
  fun_induction formatLoop tokens first format argIdx text s with
  | case1 => exact fun _ => .result (hliteral _ _)
  | case2 => exact fun _ => .result (hliteral _ _)
  | case3 rest argIdx text s literal ih =>
    intro hfirst
    exact Stays.behind ((hliteral s text).trans (.emit _ _)) (ih hfirst)
  | case4 spec rest argIdx text s literal hpct number hcall ih =>
    intro hfirst
    have hle : first ≤ e := hfirst (by rw [takesArg, if_pos rfl, if_neg hpct, hcall]; rfl)
    exact .bind (locateArg_stops hend hle argIdx) fun idx _ hin => .bind (hend.read hin) fun tok _ _ =>
      Stays.behind ((hliteral s text).trans (.emit _ _)) (ih tok fun _ => hle)
  | case5 rest argIdx text s literal hpct hcall ih =>
    intro hfirst
    have hle : first ≤ e := hfirst (by rw [takesArg, if_pos rfl, if_neg hpct, if_pos (.inr rfl)])
    exact .bind (locateArg_stops hend hle argIdx) fun idx _ hin => .bind (hend.read hin) fun tok _ _ =>
      Stays.behind ((hliteral s text).trans (stays_emitStringArg _ tok)) (ih tok fun _ => hle)
  | case6 spec rest argIdx text s literal hpct hcall hs ih =>
    intro hfirst
    rw [takesArg, if_pos rfl, if_neg hpct, hcall, if_neg (by simpa using hs)] at hfirst
    exact Stays.behind (hliteral s text) (ih hfirst)
  | case7 c spec rest argIdx text s hpercent ih =>
    intro hfirst
    rw [takesArg, if_neg hpercent] at hfirst
    exact ih hfirst

omit hfuel in
theorem advances_parsePrint {format : CString} (hat : PrintsAt tokens s.gen.pos format)
    (hinc : s.ctrl.incPos ≤ e)
    (hin : takesArg format = true → typeAt tokens (s.gen.pos + 3) ≠ some .tokEof) :
    Advances e s.gen.pos (parsePrint tokens format s) := by
  obtain ⟨text, htext, htype, -⟩ := hat.string
  have hbehind : s.gen.pos + 3 ≤ e := hend.lt_of_read htext (by rw [htype]; decide)
  have hfirst : takesArg format = true → s.gen.pos + 4 ≤ e := by
    intro htakes
    obtain ⟨next, hnext, hlt⟩ := hend.typeAt_read hbehind
    exact hlt fun heof => hin htakes (heof ▸ hnext)
  exact .bind (formatLoop_stays hend (s.gen.pos + 4) format 0 [] s hfirst) fun s₁ _ hstays =>
    Advances.skipStatement hend (hstays.inc hinc) hbehind (.inl (by omega))

omit hfuel in
theorem advances_parseAsm {tok : Token} (htok : tokens[s.gen.pos]? = some tok) (hident : tok.type = .tokIdent)
    (hinc : s.ctrl.incPos ≤ e) : Advances e s.gen.pos (parseAsm tokens s) := by
  have hlt : s.gen.pos + 1 ≤ e := hend.lt_of_read htok (by rw [hident]; decide)
  refine .bind (skipTo_stops hend hlt [.tokString]) fun q _ hq => .bind (hend.read hq.2.1) fun text _ _ => ?_
  refine Advances.skipStatement hend ?_ (Nat.le_of_succ_le hlt) (.inr ⟨?_, ?_⟩)
  · split <;> exact hinc
  · rfl
  · rw [typeAt_eq htok, hident]
    decide

omit hfuel in
theorem advances_parseReturn (hlt : s.gen.pos < e) (hinc : s.ctrl.incPos ≤ e)
    (hnext : typeAt tokens (s.gen.pos + 1) ≠ some .tokEof)
    (hnumber : typeAt tokens (s.gen.pos + 1) = some .tokNumber →
      typeAt tokens (s.gen.pos + 2) ≠ some .tokEof) :
    Advances e s.gen.pos (parseReturn tokens s) := by
  refine .bind (hend.read (p := s.gen.pos + 1) hlt) fun tok htok hbehind => ?_
  have htype := typeAt_eq htok
  have hsecond : s.gen.pos + 2 ≤ e := hbehind fun heof => hnext (heof ▸ htype)
  refine .ite (fun hnum => ?_) fun _ => Advances.goto hinc (by omega) hsecond
  obtain ⟨last, hlast, hlt'⟩ := hend.typeAt_read hsecond
  have hthird : s.gen.pos + 3 ≤ e := hlt' fun heof => hnumber (hnum ▸ htype) (heof ▸ hlast)
  exact .result ⟨show s.gen.pos < s.gen.pos + 3 by omega, hthird, hinc⟩

omit hfuel in
theorem advances_parseCall (hlparen : typeAt tokens (s.gen.pos + 1) = some .tokLparen)
    (hinc : s.ctrl.incPos ≤ e) : Advances e s.gen.pos (parseCall tokens name s) := by
  have hopen : s.gen.pos + 2 ≤ e := hend.lt_of_typeAt hlparen (by decide)
  unfold parseCall
  refine .bind (hend.read hopen) fun arg _ hbehind => .ite (fun hgetpid => ?_) fun _ => ?_
  · have hthird : s.gen.pos + 3 ≤ e := hbehind (by rw [hgetpid.2]; decide)
    exact Advances.skipIf hend hinc hthird (by decide) (by omega)
  · have hexits : ComesBack (fun exits => exits = true → s.gen.pos + 4 ≤ e) (if name = cstring "exit" then
        matchTypes tokens (s.gen.pos + 2) [.tokNumber, .tokRparen] else some false) :=
      .ite (fun _ => (matchTypes_moves hend _ (by decide) hopen).imp fun _ h => ⟨h.1, fun hb => (h.2 hb).1⟩)
        fun _ => .result fun h => nomatch h
    rw [ite_bind]
    exact .bind hexits fun exits _ hfourth =>
      .ite (fun hb => Advances.skipIf hend hinc (hfourth hb) (by decide) (by omega))
        fun _ => Advances.skipStatement hend hinc (by omega) (.inl (by omega))

/-! ### Declarations and assignments -/

omit hfuel in
theorem declareName_stays (hj : j < e) (hstorable : Storable s.symtab name)
    (hassign : typeAt tokens (j + 1) = some .tokAssign → typeAt tokens (j + 2) ≠ some .tokEof) :
    ComesBack (fun r => Stays s r.2 ∧ j ≤ r.1 ∧ r.1 < e) (declareName tokens type name j s) := by
  refine .bind (Storable.declare hstorable) fun s₁ _ hstays => .bind (hend.typeAt_read (p := j + 1) hj)
    fun next hnext hlt => .ite (fun heq => ?_) fun _ => .result ⟨hstays, Nat.le_refl j, hj⟩
  have hsecond : j + 2 ≤ e := hlt (by rw [heq]; decide)
  refine .bind (hend.read hsecond) fun tok htok hlt' =>
    .result ⟨hstays.trans (.emit _ _), Nat.le_add_right j 2, ?_⟩
  exact hlt' fun heof => hassign (heq ▸ hnext) (heof ▸ typeAt_eq htok)

omit hfuel in
theorem declareLoop_stays {s₀ : Parser}
    (hin : DeclaresInside tokens type i s₀) {k : Nat} (hat : DeclaresAt tokens type i s₀ j s)
    (hj : j ≤ e) (hk : e - j < k) :
    ComesBack (Stays s) (declareLoop tokens type k j s) := by
  induction k generalizing j s with
  | zero => exact absurd hk (Nat.not_lt_zero _)
  | succ k ih =>
    refine .bind (hend.read hj) fun tok htok hlt => .ite (fun _ => .result (.refl s)) fun hstop => ?_
    have hnot := not_or.mp hstop
    have hlt := hlt hnot.2
    by_cases hident : tok.type = .tokIdent
    · rw [if_pos hident]
      obtain ⟨hstorable, hassign⟩ := hin j s tok hat htok hident
      refine .bind (declareName_stays hend hlt hstorable hassign) fun ⟨j', s₁⟩ hname ⟨hstays, hle, hlt'⟩ =>
        .bind (skipIf_moves hend (p := j' + 1) hlt' .tokComma (by decide)) fun p hp ⟨hlow, hhigh, _⟩ => ?_
      exact (ih (hat.name htok hident hname hp) hhigh (by omega)).imp fun _ h => ⟨h.1, hstays.trans h.2⟩
    · rw [if_neg hident, some_bind]
      exact .bind (skipIf_moves hend (p := j + 1) hlt .tokComma (by decide)) fun p hp ⟨hlow, hhigh, _⟩ =>
        ih (hat.other htok hident hnot.1 hnot.2 hp) hhigh (by omega)

theorem advances_parseDeclaration (hlt : s.gen.pos < e) (hinc : s.ctrl.incPos ≤ e)
    (heof : typeAt tokens s.gen.pos ≠ some .tokEof) (hin : DeclaresInside tokens type s.gen.pos s) :
    Advances e s.gen.pos (parseDeclaration tokens fuel type s) :=
  .bind (declareLoop_stays hend hin .first hlt (show e - (s.gen.pos + 1) < fuel by omega)) fun s₁ _ hstays =>
    Advances.skipStatement hend (hstays.inc hinc) hlt.le (.inr ⟨rfl, heof⟩)

theorem advances_parseCompound {op : List Byte} (hnext : s.gen.pos + 2 ≤ e) (hinc : s.ctrl.incPos ≤ e)
    (hin : ∀ sym, symtabLookup s.symtab name = some sym →
      ExprInside tokens s.symtab fuel false precNone { s.gen with pos := s.gen.pos + 2 }) :
    Advances e s.gen.pos (parseCompound tokens fuel name op s) := by
  unfold parseCompound
  cases hsym : symtabLookup s.symtab name with
  | none => exact .goto hinc (Nat.lt_succ_self _) (by omega)
  | some sym =>
    refine .bind (parseAt_halts hend hfuel hnext (hin sym hsym)) fun ⟨done, q, s₁⟩ _ ⟨hlow, hhigh, hstays⟩ =>
      .ite (fun _ => Advances.skipStatement hend (hstays.inc hinc) hhigh (.inl (Nat.lt_of_succ_lt hlow)))
        fun _ => Advances.goto (hstays.inc hinc) ?_ ?_
    · rw [hstays.pos]
      exact Nat.lt_succ_self _
    · rw [hstays.pos]
      omega

theorem advances_parseAssignment (hnext : s.gen.pos + 2 ≤ e) (hinc : s.ctrl.incPos ≤ e)
    (heof : typeAt tokens s.gen.pos ≠ some .tokEof)
    (hstorable : symtabLookup s.symtab name = none → Storable s.symtab name)
    (hin : ∀ sym s₁ rhs, lookupOrDeclare s name = some (some sym, s₁) → tokens[s.gen.pos + 2]? = some rhs →
      ¬ (rhs.type = .tokIdent ∧ typeAt tokens (s.gen.pos + 3) = some .tokLparen) →
      ExprInside tokens s₁.symtab fuel false precNone { s₁.gen with pos := s.gen.pos + 2 }) :
    Advances e s.gen.pos (parseAssignment tokens fuel name s) := by
  refine .bind (lookupOrDeclare_stays hstorable) fun ⟨sym, s₁⟩ hlookup hstays => ?_
  have hinc₁ : s₁.ctrl.incPos ≤ e := hstays.inc hinc
  cases sym with
  | none => exact Advances.skipStatement hend hinc₁ (by omega) (.inr ⟨rfl, heof⟩)
  | some sym =>
    refine .bind (hend.read hnext) fun rhs hrhs hlt => ?_
    -- whether the right side is a call
    have hcalled : ComesBack (fun called => (called = true → s.gen.pos + 4 ≤ e) ∧ (¬ called = true →
        ¬ (rhs.type = .tokIdent ∧ typeAt tokens (s.gen.pos + 3) = some .tokLparen)))
        (if rhs.type = .tokIdent then
          (typeAt tokens (s.gen.pos + 3)).map fun type => decide (type = .tokLparen)
        else some false) := by
      refine .ite (fun hident => ?_) fun hident =>
        .result ⟨fun h => (nomatch h), fun _ hcall => hident hcall.1⟩
      obtain ⟨next, hread, hlt'⟩ := hend.typeAt_read (p := s.gen.pos + 3) (hlt (by rw [hident]; decide))
      rw [hread]
      refine .result ⟨fun hcall => hlt' ?_, fun hcall heq => hcall ?_⟩
      · rw [of_decide_eq_true hcall]
        decide
      · exact decide_eq_true (some.inj heq.2)
    rw [ite_bind]
    refine .bind hcalled fun called _ hcall => .ite (fun htrue => ?_) fun hfalse => ?_
    · exact .bind (hend.typeAt_read (hcall.1 htrue)) fun close _ hlast =>
        .ite (fun hgetpid => Advances.skipIf hend hinc₁ (hlast (by rw [hgetpid.2]; decide)) (by decide)
          (by omega)) fun _ => Advances.skipStatement hend hinc₁ hnext (.inl (by omega))
    · refine .bind (parseAt_halts hend hfuel hnext (hin sym s₁ rhs hlookup hrhs (hcall.2 hfalse)))
        fun ⟨done, q, s₂⟩ _ ⟨hlow, hhigh, hstays'⟩ => ?_
      have hinc₂ : s₂.ctrl.incPos ≤ e := hstays'.inc hinc₁
      exact .ite (fun _ => Advances.skipStatement hend hinc₂ hhigh (.inl (Nat.lt_of_succ_lt hlow)))
        fun _ => Advances.skipStatement hend hinc₂ (by omega) (.inr ⟨rfl, heof⟩)

/-! ### Control flow -/

def Ahead (e i : Nat) (s : Parser) : Prop := i < s.gen.pos ∧ s.gen.pos ≤ e ∧ s.ctrl.incPos ≤ e

theorem TurnInside.advances_init (h : TurnInside tokens fuel s) (hinc : s.ctrl.incPos ≤ e)
    (hfor : typeAt tokens s.gen.pos = some .tokFor) (hlparen : typeAt tokens (s.gen.pos + 1) = some .tokLparen)
    (hpos : s.gen.pos + 2 ≤ e) : Advances e s.gen.pos (parseForInit tokens fuel (headOpened s)) := by
  have hi : s.gen.pos < (headOpened s).gen.pos := Nat.lt_add_of_pos_right (by decide : 0 < 2)
  refine .bind (hend.read hpos) fun tok htok hlt => .ite (fun hsemi => ?_) fun _ => ?_
  · exact Advances.goto hinc (show s.gen.pos < s.gen.pos + 2 + 1 by omega) (hlt (by rw [hsemi]; decide))
  refine .bind (matchTypes_moves hend [.tokIdent, .tokAssign] (by decide) hpos) fun assigns _ hmatch =>
    .ite (fun htrue => ?_) fun _ => Advances.skipStatement hend hinc hpos (.inl hi)
  obtain ⟨hthird, htypes⟩ := hmatch htrue
  have hident : tok.type = .tokIdent := some.inj ((typeAt_eq htok).symm.trans (htypes 0 .tokIdent rfl))
  have hassign := htypes 1 .tokAssign rfl
  refine .bind (lookupOrDeclare_stays (h.assigns tok.str (.init hfor hlparen htok hident hassign)))
    fun ⟨sym, s₁⟩ hlookup hstays => ?_
  have hinc₁ : s₁.ctrl.incPos ≤ e := hstays.inc hinc
  cases sym with
  | none => exact Advances.skipIf hend hinc₁ hpos (by decide) hi
  | some sym =>
    refine .bind (parseAt_halts hend hfuel hthird
      (h.evaluates _ _ (.init hfor hlparen htok hident hassign hlookup)))
      fun ⟨done, q, s₂⟩ _ ⟨hlow, hhigh, hstays'⟩ => ?_
    have hinc₂ : s₂.ctrl.incPos ≤ e := hstays'.inc hinc₁
    have hi : s.gen.pos < q := (Nat.lt_add_right 2 hi).trans_le hlow
    cases done with
    | true => exact Advances.skipIf hend hinc₂ hhigh (by decide) hi
    | false => exact Advances.skipIf hend hinc₂ hhigh (by decide) hi

theorem parseCondition_moves (isFor : Bool) (hs : Ahead e i s)
    (hin : ∀ next, typeAt tokens s.gen.pos = some next → (isFor = true → next ≠ .tokSemicolon) →
      next ≠ .tokRparen → ExprInside tokens s.symtab fuel false precNone s.gen) :
    ComesBack (fun r => Ahead e i r.2) (parseCondition tokens fuel isFor s) := by
  obtain ⟨hi, hpos, hinc⟩ := id hs
  refine .bind (hend.typeAt_read hpos) fun next hnext hlt => .ite (fun _ => .result hs) fun hempty =>
    .ite (fun _ => .result hs) fun hmissing => ?_
  have hrparen : next ≠ .tokRparen := by
    intro heq
    cases isFor with
    | true => exact hempty ⟨rfl, .inr heq⟩
    | false => exact hmissing ⟨Bool.false_ne_true, heq⟩
  refine .bind (parseAt_halts (s := { s with ctrl := { s.ctrl with loopTop := s.gen.out.length } }) hend hfuel
    hpos (hin next hnext (fun hfor heq => hempty ⟨hfor, .inl heq⟩) hrparen))
    fun ⟨done, q, s₁⟩ _ ⟨hlow, hhigh, hstays⟩ => ?_
  have hinc₁ : s₁.ctrl.incPos ≤ e := hstays.inc hinc
  have hs₁ : Ahead e i s₁ := by
    have hpos₁ : s₁.gen.pos = s.gen.pos := hstays.pos
    exact ⟨by omega, by omega, hinc₁⟩
  have hq : i < q := hi.trans_le hlow
  cases done with
  | false => exact .result hs₁
  | true =>
    cases isFor with
    | true =>
      exact .bind (hend.typeAt_read hs₁.2.1) fun type _ _ => .ite (fun _ => .result hs₁) fun _ => .result hs₁
    | false =>
      refine .bind (hend.typeAt_read hhigh) fun type _ hlast =>
        .ite (fun _ => .result ⟨hq, hhigh, hinc₁⟩) fun hclose => ?_
      have hrparen : type = .tokRparen := not_not.mp fun hne => hclose ⟨Bool.false_ne_true, hne⟩
      exact .result ⟨Nat.lt_succ_of_lt hq, hlast (by rw [hrparen]; decide), hinc₁⟩

omit hfuel in
theorem advances_parseForClauses (hs : Ahead e i s) : Advances e i (parseForClauses tokens s) := by
  obtain ⟨hi, hpos, hinc⟩ := hs
  have hskip : ComesBack (fun q => s.gen.pos ≤ q ∧ q ≤ e) (if s.ctrl.emptyCond then some s.gen.pos
      else skipTo tokens [.tokSemicolon, .tokRparen] s.gen.pos) :=
    .ite (fun _ => .result ⟨le_rfl, hpos⟩) fun _ =>
      (skipTo_stops hend hpos _).imp fun _ h => ⟨h.1, h.2.1, h.2.2.1⟩
  unfold parseForClauses
  rw [ite_bind]
  refine .bind hskip fun q _ hq => .bind (hend.typeAt_read hq.2) fun type _ hlt => .ite (fun hsemi => ?_)
    fun _ => Advances.skipIf hend hinc hq.2 (by decide) (by omega)
  have hbehind : q + 1 ≤ e := hlt (by rw [hsemi]; decide)
  exact .bind (skipTo_stops hend hbehind [.tokRparen]) fun k _ ⟨hlow, hhigh, _⟩ =>
    Advances.skipIf hend hbehind hhigh (by decide) (by omega)

theorem TurnInside.advances_control (h : TurnInside tokens fuel s) {type : CtrlType} {first : TokenType}
    (hfirst : typeAt tokens s.gen.pos = some first) (hfor : type = .forLoop → first = .tokFor)
    (hhead : type ≠ .forLoop → first = .tokIf ∨ first = .tokWhile) (hlt : s.gen.pos < e)
    (hinc : s.ctrl.incPos ≤ e) : Advances e s.gen.pos (parseControl tokens fuel type s) := by
  refine .bind (hend.typeAt_read (p := s.gen.pos + 1) hlt) fun next hnext hopen =>
    .ite (fun _ => .result ⟨Nat.lt_succ_self _, hlt, hinc⟩) fun hlparen => ?_
  have hlparen := not_not.mp hlparen
  rw [hlparen] at hnext
  have hsecond : s.gen.pos + 2 ≤ e := hopen (by rw [hlparen]; decide)
  have hopened : Ahead e s.gen.pos (headOpened s) :=
    ⟨Nat.lt_add_of_pos_right (by decide : 0 < 2), hsecond, hinc⟩
  by_cases htype : type = .forLoop
  · have hkind : typeAt tokens s.gen.pos = some .tokFor := hfor htype ▸ hfirst
    rw [decide_eq_true htype, if_pos rfl]
    refine .bind (h.advances_init hend hfuel hinc hkind hnext hsecond) fun s₁ hs₁ hahead =>
      .bind (parseCondition_moves hend hfuel true hahead fun next hread hsemi hrparen =>
        h.evaluates _ _ (.test hkind hnext hs₁ hread (hsemi rfl) hrparen)) fun ⟨done, s₂⟩ _ hs₂ =>
      .ite (fun _ => .result hs₂) fun _ => ?_
    exact .bind (advances_parseForClauses hend hs₂) fun s₃ _ hs₃ => .result hs₃
  · rw [decide_eq_false htype, if_neg Bool.false_ne_true]
    change Advances e s.gen.pos ((parseCondition tokens fuel false (headOpened s)).bind _)
    refine .bind (parseCondition_moves hend hfuel false hopened fun next hread _ hrparen =>
      h.evaluates _ _ (.condition ?_ hnext hread hrparen)) fun ⟨done, s₂⟩ _ hs₂ =>
      .ite (fun _ => .result hs₂) fun _ => .result hs₂
    rcases hhead htype with rfl | rfl
    · exact .inl hfirst
    · exact .inr hfirst

/-! ### Closing braces -/

theorem TurnInside.increment_stays (h : TurnInside tokens fuel s) (hinc : s.ctrl.incPos ≤ e)
    (hrbrace : typeAt tokens s.gen.pos = some .tokRbrace) (hfor : s.ctrl.type = .forLoop)
    (hinner : s.braceDepth = s.ctrl.outerDepth + 1) :
    ComesBack (Stays s) (parseForIncrement tokens fuel s) := by
  refine .ite (fun _ => .result (.refl s)) fun hzero => .bind (hend.read hinc) fun tok htok hlt =>
    .ite (fun _ => .result (.refl s)) fun hident => ?_
  have hident := not_not.mp hident
  refine .bind (hend.typeAt_read (p := s.ctrl.incPos + 1) (hlt (by rw [hident]; decide)))
    fun next hnext hlt' =>
    .ite (fun _ => ?_) fun _ => .ite (fun hassign => ?_) fun _ => .result (.refl s)
  · split
    · exact .result (.emit s _)
    · exact .result (.refl s)
  · refine .bind (parseAt_halts hend hfuel (hlt' (by rw [hassign]; decide))
      (h.evaluates _ _ (.increment hrbrace hfor hinner hzero htok hident (hassign ▸ hnext))))
      fun ⟨done, q, s₁⟩ _ ⟨_, _, hstays⟩ => ?_
    dsimp only
    split
    · cases done with
      | true => exact .result (hstays.trans (.emit s₁ _))
      | false => exact .result hstays
    · exact .result hstays

omit hfuel in
theorem advances_closeThen (hlt : s.gen.pos < e) (hinc : s.ctrl.incPos ≤ e) :
    Advances e s.gen.pos (closeThen tokens s) := by
  refine .bind (hend.typeAt_read (p := s.gen.pos + 1) hlt) fun next _ hbehind => .ite (fun helse => ?_)
    fun _ => .result ⟨Nat.lt_succ_self _, hlt, hinc⟩
  have hsecond : s.gen.pos + 2 ≤ e := hbehind (by rw [helse]; decide)
  refine .bind (hend.typeAt_read hsecond) fun body _ hlast => .ite (fun hlbrace => ?_) fun _ => ?_
  · have hthird : s.gen.pos + 3 ≤ e := hlast (by rw [hlbrace]; decide)
    exact .result ⟨show s.gen.pos < s.gen.pos + 1 + 2 by omega, hthird, hinc⟩
  · exact .result ⟨show s.gen.pos < s.gen.pos + 1 + 1 by omega, hsecond, hinc⟩

omit hend hfuel in
theorem Stays.advances (h : Stays s s') (hlt : s.gen.pos < e) (hinc : s.ctrl.incPos ≤ e) (ctrl : Ctrl)
    (hctrl : ctrl.incPos = s'.ctrl.incPos) (depth : Int) :
    Advances e s.gen.pos (some ({ s' with ctrl := ctrl, braceDepth := depth }.skip 1)) := by
  have hpos : s'.gen.pos = s.gen.pos := h.pos
  have hkept : s'.ctrl.incPos = s.ctrl.incPos := congrArg Ctrl.incPos h.ctrl
  refine ⟨_, rfl, ?_, ?_, ?_⟩
  · show s.gen.pos < s'.gen.pos + 1
    omega
  · show s'.gen.pos + 1 ≤ e
    omega
  · show ctrl.incPos ≤ e
    omega

omit hend hfuel in
theorem advances_closeElse (hlt : s.gen.pos < e) (hinc : s.ctrl.incPos ≤ e) :
    Advances e s.gen.pos (some (closeElse s)) := by
  unfold closeElse
  split
  · refine Stays.advances (.patch s _ _) hlt hinc _ ?_ _
    rfl
  · refine Stays.advances (.refl s) hlt hinc _ ?_ _
    rfl

theorem TurnInside.advances_loop (h : TurnInside tokens fuel s) (hlt : s.gen.pos < e)
    (hinc : s.ctrl.incPos ≤ e) (hrbrace : typeAt tokens s.gen.pos = some .tokRbrace)
    (hinner : s.braceDepth = s.ctrl.outerDepth + 1) : Advances e s.gen.pos (closeLoop tokens fuel s) := by
  have hincrement : ComesBack (Stays s)
      (if s.ctrl.type = .forLoop then parseForIncrement tokens fuel s else some s) :=
    .ite (fun hfor => h.increment_stays hend hfuel hinc hrbrace hfor hinner) fun _ => .result (.refl s)
  unfold closeLoop
  rw [ite_bind]
  refine .bind hincrement fun s₁ _ hstays => ?_
  have hjump : Stays s (emitLoopJump s₁) := hstays.trans (.emit s₁ _)
  dsimp only
  split
  · refine Stays.advances (hjump.trans (.patch _ _ _)) hlt hinc _ ?_ _
    rfl
  · refine Stays.advances hjump hlt hinc _ ?_ _
    rfl

theorem TurnInside.advances_brace (h : TurnInside tokens fuel s) (hlt : s.gen.pos < e)
    (hinc : s.ctrl.incPos ≤ e) (hrbrace : typeAt tokens s.gen.pos = some .tokRbrace) :
    Advances e s.gen.pos (closeBrace tokens fuel s) :=
  .ite (fun _ => advances_closeThen hend hlt hinc) fun _ => .ite (fun _ => advances_closeElse hlt hinc)
    fun _ => .ite (fun hloop => h.advances_loop hend hfuel hlt hinc hrbrace hloop.2)
      fun _ => .result ⟨Nat.lt_succ_self _, hlt, hinc⟩

/-! ### A turn -/

omit hfuel in
theorem functionHead_moves (hi : i ≤ e) :
    ComesBack (fun head => ∀ k, head = some k → i < k ∧ k ≤ e) (functionHead tokens i) := by
  have hnone : ∀ k : Nat, (none : Option Nat) = some k → i < k ∧ k ≤ e := fun _ h => nomatch h
  refine .bind (hend.typeAt_read hi) fun first _ hlt => .ite (fun htype => ?_) fun _ => .result hnone
  have hsecond : i + 1 ≤ e := hlt (by rcases htype with rfl | rfl | rfl <;> decide)
  refine .bind (hend.typeAt_read hsecond) fun next _ hlt₁ => ?_
  -- where the name is
  obtain ⟨j, hj, hlow, hhigh⟩ : ∃ j, (if next = .tokStar then i + 2 else i + 1) = j ∧ i < j ∧ j ≤ e := by
    by_cases hstar : next = .tokStar
    · rw [if_pos hstar]
      exact ⟨_, rfl, by omega, hlt₁ (by rw [hstar]; decide)⟩
    · rw [if_neg hstar]
      exact ⟨_, rfl, by omega, hsecond⟩
  rw [hj]
  refine .bind (hend.typeAt_read hhigh) fun name _ hlt₂ => .ite (fun hident => ?_) fun _ => .result hnone
  refine .bind (hend.typeAt_read (p := j + 1) (hlt₂ (by rw [hident]; decide))) fun opening _ hlt₃ =>
    .ite (fun hlparen => ?_) fun _ => .result hnone
  refine .bind (skipTo_stops hend (p := j + 2) (hlt₃ (by rw [hlparen]; decide)) [.tokRparen])
    fun k _ ⟨hle, hend₁, _⟩ => .bind (skipIf_moves hend hend₁ .tokRparen (by decide))
    fun k₁ _ ⟨hle₁, hend₂, _⟩ => .bind (skipIf_moves hend hend₂ .tokLbrace (by decide))
    fun k₂ _ ⟨hle₂, hend₃, _⟩ => .result ?_
  rintro _ ⟨⟩
  exact ⟨by omega, hend₃⟩

omit hend hfuel in
theorem functionHead_none {first : TokenType} (h : functionHead tokens i = some none)
    (hfirst : typeAt tokens i = some first) (hdecl : first = .tokInt ∨ first = .tokChar)
    (hident : typeAt tokens (i + 1) = some .tokIdent) : typeAt tokens (i + 2) ≠ some .tokLparen := by
  intro hlparen
  have htype : first = .tokInt ∨ first = .tokChar ∨ first = .tokVoid := hdecl.imp_right .inl
  unfold functionHead at h
  rw [hfirst, some_bind, if_pos htype, hident, some_bind, if_neg (by decide)] at h
  dsimp only at h
  rw [hident, some_bind, if_pos rfl, hlparen, some_bind, if_pos rfl] at h
  obtain ⟨k, -, h⟩ := bind_eq_some_iff.mp h
  obtain ⟨k₁, -, h⟩ := bind_eq_some_iff.mp h
  obtain ⟨k₂, -, h⟩ := bind_eq_some_iff.mp h
  cases h

theorem TurnInside.advances_named (h : TurnInside tokens fuel s) {tok : Token}
    (htok : tokens[s.gen.pos]? = some tok) (hident : tok.type = .tokIdent) (hasm : tok.str ≠ cstring "asm")
    (hinc : s.ctrl.incPos ≤ e) : Advances e s.gen.pos (parseNamed tokens fuel tok.str s) := by
  have hlt : s.gen.pos + 1 ≤ e := hend.lt_of_read htok (by rw [hident]; decide)
  refine .bind (hend.typeAt_read hlt) fun next hnext hbehind => ?_
  cases hop : emitCompound next with
  | some op =>
    have hsecond : s.gen.pos + 2 ≤ e := hbehind fun heof => by rw [heof] at hop; cases hop
    exact advances_parseCompound hend hfuel hsecond hinc fun sym hsym =>
      h.evaluates _ _ (.compound htok hident hasm hnext hop hsym)
  | none =>
    refine .ite (fun hassign => ?_) fun _ => .ite (fun hlparen => ?_) fun _ =>
      .result ⟨Nat.lt_succ_self _, hlt, hinc⟩
    · have hsecond : s.gen.pos + 2 ≤ e := hbehind (by rw [hassign]; decide)
      rw [hassign] at hnext
      refine advances_parseAssignment hend hfuel hsecond hinc ?_ ?_ ?_
      · rw [typeAt_eq htok, hident]
        decide
      · exact h.assigns tok.str (.statement htok hident hasm hnext)
      · intro sym s₁ rhs hlookup hrhs hcall
        exact h.evaluates _ _ (.assignment htok hident hasm hnext hlookup hrhs hcall)
    · exact advances_parseCall hend (hlparen ▸ hnext) hinc

theorem TurnInside.advances (h : TurnInside tokens fuel s) (hlt : s.gen.pos < e) (hinc : s.ctrl.incPos ≤ e) :
    Advances e s.gen.pos (parseTurn tokens fuel s) := by
  have hskip : Advances e s.gen.pos (some (s.skip 1)) := .result ⟨Nat.lt_succ_self _, hlt, hinc⟩
  refine .bind (hend.read hlt.le) fun tok htok _ =>
    .bind (functionHead_moves hend hlt.le) fun head hhead hmoved => ?_
  have hfirst := typeAt_eq htok
  cases head with
  | some k => exact Advances.goto hinc (hmoved k rfl).1 (hmoved k rfl).2
  | none =>
    have hprints : ComesBack (fun prints => prints = true → s.gen.pos + 2 ≤ e ∧
        ∀ text, tokens[s.gen.pos + 2]? = some text → PrintsAt tokens s.gen.pos text.str)
        (if tok.type = .tokIdent ∧ tok.str = cstring "print" ∨
          tok.type = .tokIdent ∧ tok.str = cstring "printf" then
          matchTypes tokens (s.gen.pos + 1) [.tokLparen, .tokString] else some false) := by
      refine .ite (fun hname => ?_) fun _ => .result fun h => nomatch h
      refine (matchTypes_moves hend _ (by decide) hlt).imp fun _ ⟨hb, hmatch⟩ => ⟨hb, fun htrue => ?_⟩
      obtain ⟨hle, htypes⟩ := hmatch htrue
      refine ⟨Nat.le_of_succ_le hle, fun text htext => ?_⟩
      have hident : tok.type = .tokIdent := hname.elim And.left And.left
      have hstring := htypes 1 .tokString rfl
      exact ⟨⟨tok, htok, hident, hname.imp And.right And.right⟩, htypes 0 .tokLparen rfl,
        ⟨text, htext, some.inj ((typeAt_eq htext).symm.trans hstring), rfl⟩⟩
    have hallocates : ComesBack (fun allocates => allocates = true → s.gen.pos + 4 ≤ e)
      (if tok.type = .tokIdent ∧
        tok.str = cstring "malloc" then
          matchTypes tokens (s.gen.pos + 1) [.tokLparen, .tokNumber, .tokRparen] else some false) :=
      .ite (fun _ => (matchTypes_moves hend _ (by decide) hlt).imp fun _ h => ⟨h.1, fun hb => (h.2 hb).1⟩)
        fun _ => .result fun h => nomatch h
    refine .bind hprints fun prints _ hformat => .ite (fun htrue => ?_) fun _ =>
      .bind hallocates fun allocates _ hfourth => .ite (fun htrue => ?_) fun _ => ?_
    · obtain ⟨hsecond, hat⟩ := hformat htrue
      exact .bind (hend.read hsecond) fun text htext _ =>
        advances_parsePrint hend (hat text htext) hinc (h.prints _ (hat text htext))
    · have hfourth := hfourth htrue
      exact .bind (hend.read (p := s.gen.pos + 2) (by omega)) fun size _ _ =>
        .result ⟨show s.gen.pos < s.gen.pos + 4 by omega, hfourth, hinc⟩
    have hdeclaration : tok.type = .tokInt ∨ tok.type = .tokChar → Advances e s.gen.pos (do
        if (← typeAt tokens (s.gen.pos + 1)) = .tokIdent then
          parseDeclaration tokens fuel (if tok.type = .tokInt then .int else .char) s
        else some (s.skip 1)) := by
      intro htype
      refine .bind (hend.typeAt_read (p := s.gen.pos + 1) hlt) fun next hnext _ => .ite (fun hident => ?_)
        fun _ => hskip
      refine advances_parseDeclaration hend hfuel hlt hinc ?_ ?_
      · rw [hfirst]
        rcases htype with htype | htype <;> rw [htype] <;> decide
      · rw [hident] at hnext
        exact h.declares tok.type hfirst htype hnext (functionHead_none hhead hfirst htype hnext)
    cases htype : tok.type
    case tokReturn =>
      obtain ⟨hreturn, hnumber⟩ := h.returns (htype ▸ hfirst)
      exact advances_parseReturn hend hlt hinc hreturn hnumber
    case tokIdent =>
      exact .ite (fun _ => advances_parseAsm hend htok htype hinc) fun hasm =>
        h.advances_named hend hfuel htok htype (fun heq => hasm ⟨rfl, heq⟩) hinc
    case tokInt | tokChar =>
      rw [htype] at hdeclaration
      exact hdeclaration (by decide)
    case tokRbrace => exact h.advances_brace hend hfuel hlt hinc (htype ▸ hfirst)
    case tokIf =>
      exact h.advances_control hend hfuel hfirst (fun h => nomatch h) (fun _ => .inl htype) hlt hinc
    case tokWhile =>
      exact h.advances_control hend hfuel hfirst (fun h => nomatch h) (fun _ => .inr htype) hlt hinc
    case tokFor =>
      exact h.advances_control hend hfuel hfirst (fun _ => htype) (fun hne => absurd rfl hne) hlt hinc
    case tokLbrace => exact .result ⟨Nat.lt_succ_self _, hlt, hinc⟩
    all_goals exact hskip

end Turn

section Run

variable {tokens : List Token} {size e fuel : Nat} {g : Gen}

def RunInside (tokens : List Token) (size fuel : Nat) (g : Gen) : Prop :=
  ∀ s, Reached tokens size fuel g s → Going tokens size s → TurnInside tokens fuel s

variable (hend : EndsAt tokens e) (hfuel : 40 * (e + 1) + 1 ≤ fuel)

include hend hfuel

variable (h : RunInside tokens size fuel g)

include h

theorem RunInside.reached {s : Parser}
    (hreached : Reached tokens size fuel g s) : s.gen.pos ≤ e ∧ s.ctrl.incPos ≤ e := by
  induction hreached with
  | start => exact ⟨Nat.zero_le e, Nat.zero_le e⟩
  | @turn s s' hreached hgoing hturn ih =>
    obtain ⟨type, htype, hne, -⟩ := id hgoing
    have hlt := hend.lt_of_typeAt htype hne
    obtain ⟨s₁, hs₁, -, hpos, hinc⟩ := (h s hreached hgoing).advances hend hfuel hlt ih.2
    rw [hturn] at hs₁
    cases hs₁
    exact ⟨hpos, hinc⟩

theorem RunInside.parseLoop {n : Nat} {s : Parser} (hreached : Reached tokens size fuel g s)
    (hn : e - s.gen.pos < n) :
    ∃ s', parseLoop tokens size fuel n s = some s' := by
  induction n generalizing s with
  | zero => exact absurd hn (Nat.not_lt_zero _)
  | succ n ih =>
    obtain ⟨hpos, hinc⟩ := h.reached hend hfuel hreached
    obtain ⟨type, htype, hlt⟩ := hend.typeAt_read hpos
    unfold Tcc.parseLoop
    rw [htype, some_bind]
    by_cases hgoing : type ≠ .tokEof ∧ s.gen.out.length < guard size
    · rw [if_pos hgoing]
      have hgo : Going tokens size s := ⟨type, htype, hgoing⟩
      have hlt := hlt hgoing.1
      obtain ⟨s₁, hturn, hmoved, -, -⟩ := (h s hreached hgo).advances hend hfuel hlt hinc
      rw [hturn, some_bind]
      exact ih (.turn hreached hgo hturn) (by omega)
    · rw [if_neg hgoing]
      exact ⟨s, rfl⟩

theorem RunInside.parseCTokens : ∃ out, parseCTokens fuel tokens size g = some out := by
  obtain ⟨s, hloop⟩ := h.parseLoop hend hfuel .start (n := fuel) (by
    show e - 0 < fuel
    omega)
  exact ⟨finish s, by rw [Tcc.parseCTokens, hloop]; rfl⟩

end Run

end JexOs.Tcc
