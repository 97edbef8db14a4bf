import JexOs.Proof.TccParse

/-!
# Every expression is read

The token strings of expressions without their trees: which operator binds tighter does not matter for whether the
parser gets through.
-/

namespace JexOs.Tcc

open X86 (Byte wordBytes)
open List Option

inductive PhraseKind where
  | operand
  | expr
  | args (n : Nat)

/-- The tokens are a phrase of the kind, over the declared variables. -/
inductive Phrase (declared : CString → Prop) : PhraseKind → List Token → Prop where
  | num {t : Token} (htype : t.type = .tokNumber) : Phrase declared .operand [t]
  | var {x : Token} (htype : x.type = .tokIdent) (hx : declared x.str) : Phrase declared .operand [x]
  | post {x t : Token} (htype : x.type = .tokIdent) (hx : declared x.str)
      (hop : t.type = .tokPlusplus ∨ t.type = .tokMinusminus) : Phrase declared .operand [x, t]
  | pre {t x : Token} (hop : t.type = .tokPlusplus ∨ t.type = .tokMinusminus ∨ t.type = .tokAnd)
      (htype : x.type = .tokIdent) (hx : declared x.str) : Phrase declared .operand [t, x]
  | unary {t : Token} {ts : List Token}
      (hop : t.type ∈ [TokenType.tokPlus, .tokMinus, .tokLognot, .tokNot, .tokStar])
      (h : Phrase declared .operand ts) : Phrase declared .operand (t :: ts)
  | paren {lp rp : Token} {ts : List Token} (hlp : lp.type = .tokLparen)
      (h : Phrase declared .expr ts) (hrp : rp.type = .tokRparen) :
      Phrase declared .operand (lp :: ts ++ [rp])
  | call {f lp rp : Token} {ts : List Token} {n : Nat} (htype : f.type = .tokIdent)
      (hname : f.str.length ≤ 30) (hlp : lp.type = .tokLparen) (h : Phrase declared (.args n) ts)
      (hn : n ≤ maxFuncArgs) (hrp : rp.type = .tokRparen) :
      Phrase declared .operand (f :: lp :: ts ++ [rp])
  | single {ts : List Token} (h : Phrase declared .operand ts) : Phrase declared .expr ts
  | binary {ts ts' : List Token} {t : Token} (hl : Phrase declared .expr ts)
      (hop : exprIsBinaryOp t.type = true) (hr : Phrase declared .operand ts') :
      Phrase declared .expr (ts ++ t :: ts')
  | noArgs : Phrase declared (.args 0) []
  | lastArg {ts : List Token} (h : Phrase declared .expr ts) : Phrase declared (.args 1) ts
  | moreArgs {ts ts' : List Token} {t : Token} {n : Nat} (h : Phrase declared .expr ts)
      (hcomma : t.type = .tokComma) (hs : Phrase declared (.args (n + 1)) ts') :
      Phrase declared (.args (n + 2)) (ts ++ t :: ts')

def Ends (t : Token) : Prop := ¬ Attaches t.type ∧ exprIsBinaryOp t.type = false

section Accept

variable {tokens : List Token} {tab : Symtab}

variable (tokens tab)

def AcceptsOperand (ts : List Token) : Prop :=
  ∀ g t rest, At tokens g (ts ++ t :: rest) → ¬ Attaches t.type →
    ∃ g', At tokens g' (t :: rest) ∧ Returns (fun k => parsePrimary tokens tab k g) (0, g')

def AcceptsExpr (ts : List Token) : Prop :=
  ∀ g t rest, At tokens g (ts ++ t :: rest) → Ends t →
    ∃ g', At tokens g' (t :: rest) ∧
      Returns (fun k => parseExpr1 tokens tab k false precNone g) (0, g')

def Chain (c : List (Token × List Token)) : Prop :=
  ∀ x ∈ c, exprIsBinaryOp x.1.type = true ∧ AcceptsOperand tokens tab x.2

variable {tokens tab}

def chainTokens (c : List (Token × List Token)) : List Token := c.flatMap fun x => x.1 :: x.2

theorem not_attaches_of_binary {type : TokenType} (h : exprIsBinaryOp type = true) : ¬ Attaches type := by
  revert h
  cases type <;> decide

variable {c : List (Token × List Token)} {t : Token} {rest ts : List Token} {declared : CString → Prop}

theorem Chain.next (hc : Chain tokens tab c) (ht : Ends t) (rest : List Token) :
    ∃ u rest', chainTokens c ++ t :: rest = u :: rest' ∧ ¬ Attaches u.type := by
  cases c with
  | nil => exact ⟨t, rest, rfl, ht.1⟩
  | cons x c => exact ⟨x.1, _, rfl, not_attaches_of_binary (hc x mem_cons_self).1⟩

theorem applyBinary_returns {op : TokenType} (hop : exprIsBinaryOp op = true) (g : Gen) :
    ∃ g', applyBinary op g = (0, g') ∧ g'.pos = g.pos := by
  unfold applyBinary
  revert hop
  cases op <;> intro hop
  case tokPlus =>
    dsimp only
    split
    · split
      · exact ⟨_, rfl, rfl⟩
      · exact ⟨_, rfl, rfl⟩
    · exact ⟨_, rfl, rfl⟩
  all_goals
    first
    | exact ⟨_, rfl, rfl⟩
    | exact absurd hop (by decide)

structure Stops (c c' : List (Token × List Token)) (t : Token) (rest : List Token) (tokens : List Token)
    (g' : Gen) : Prop where
  suffix : c' <:+ c
  place : At tokens g' (chainTokens c' ++ t :: rest)

theorem climb_chain (ht : Ends t)
    (n : Nat) : ∀ c : List (Token × List Token), c.length = n → Chain tokens tab c →
    (∀ p g, At tokens g (chainTokens c ++ t :: rest) → ∃ c' g', Stops c c' t rest tokens g' ∧
        (∀ x ∈ c'.head?, exprGetPrecedence x.1.type < p) ∧
        (∀ x ∈ c.head?, p ≤ exprGetPrecedence x.1.type → c'.length < c.length) ∧
        Returns (fun k => climb tokens tab k p g) (0, g')) ∧
    (∀ q g, At tokens g (chainTokens c ++ t :: rest) → ∃ c' g', Stops c c' t rest tokens g' ∧
        (∀ x ∈ c'.head?, exprGetPrecedence x.1.type ≤ q) ∧
        Returns (fun k => climbHigher tokens tab k q g) (0, g')) := by
  induction n using Nat.strongRecOn with
  | ind n ih =>
    intro c hlength hc
    have hnotbinary : ¬ exprIsBinaryOp t.type = true := by
      rw [ht.2]
      decide
    have hclimb : ∀ p g, At tokens g (chainTokens c ++ t :: rest) →
        ∃ c' g', Stops c c' t rest tokens g' ∧
          (∀ x ∈ c'.head?, exprGetPrecedence x.1.type < p) ∧
          (∀ x ∈ c.head?, p ≤ exprGetPrecedence x.1.type → c'.length < c.length) ∧
          Returns (fun k => climb tokens tab k p g) (0, g') := by
      intro p g hat
      cases c with
      | nil =>
        refine ⟨[], g, ⟨suffix_refl _, hat⟩, by simp, by simp, Returns.of_succ ?_⟩
        exact climb_stops hat fun h => absurd h hnotbinary
      | cons x c =>
        obtain ⟨op, ts⟩ := x
        obtain ⟨hop, haccepts⟩ := hc (op, ts) mem_cons_self
        have hrestChain : Chain tokens tab c := fun y hy => hc y (mem_cons_of_mem _ hy)
        have hat₀ : At tokens g (op :: (ts ++ (chainTokens c ++ t :: rest))) := by
          rw [← append_assoc]
          exact hat
        by_cases hless : exprGetPrecedence op.type < p
        · refine ⟨(op, ts) :: c, g, ⟨suffix_refl _, hat⟩, ?_, ?_, Returns.of_succ ?_⟩
          · intro y hy
            cases hy
            exact hless
          · intro y hy hle
            cases hy
            exact absurd hless (not_lt.mpr hle)
          · exact climb_stops hat₀ fun _ => hless
        · obtain ⟨u, rest', hnext, hu⟩ := hrestChain.next ht rest
          -- the operand, the tighter operators behind it, and the rest of this loop
          let g₁ : Gen :=
            { g.skip 1 with leftIsPointer := decide (g.lastIdentType = SymType.ptr) }.emit emitPushEax
          have hat₁ : At tokens g₁ (ts ++ u :: rest') := by
            rw [← hnext]
            exact hat₀.tail rfl
          obtain ⟨g₂, hat₂, hprimary⟩ := haccepts g₁ u rest' hat₁ hu
          rw [← hnext] at hat₂
          obtain ⟨c₂, g₃, hstops₂, -, hhigher⟩ := (ih c.length
            (by rw [← hlength, length_cons]; exact Nat.lt_succ_self _) c rfl hrestChain).2
            (exprGetPrecedence op.type) g₂ hat₂
          obtain ⟨g₄, happly, hpos⟩ := applyBinary_returns hop (g₃.emit emitPopEbx)
          have hat₄ : At tokens g₄ (chainTokens c₂ ++ t :: rest) := by
            obtain ⟨before, hbefore, hlen⟩ := hstops₂.place
            exact ⟨before, hbefore, hlen.trans hpos.symm⟩
          have hshort : c₂.length ≤ c.length := hstops₂.suffix.length_le
          have hchain₂ : Chain tokens tab c₂ := fun y hy => hrestChain y (hstops₂.suffix.subset hy)
          obtain ⟨c₃, g₅, hstops₃, hhead, -, hloop⟩ := (ih c₂.length
            (by rw [← hlength, length_cons]; omega) c₂ rfl hchain₂).1 p g₄ hat₄
          refine ⟨c₃, g₅, ⟨?_, hstops₃.place⟩, hhead, ?_, ?_⟩
          · exact (hstops₃.suffix.trans hstops₂.suffix).trans (suffix_cons _ _)
          · intro _ _ _
            have hlen₃ := hstops₃.suffix.length_le
            rw [length_cons]
            omega
          · refine Returns.succ ?_
            obtain ⟨n₁, h₁⟩ := hprimary
            obtain ⟨n₂, h₂⟩ := hhigher
            obtain ⟨n₃, h₃⟩ := hloop
            refine ⟨max n₁ (max n₂ n₃), fun k hk => ?_⟩
            have hround : climb tokens tab (k + 1) p g =
                orFail (parsePrimary tokens tab k g₁) fun g =>
                  orFail (climbHigher tokens tab k (exprGetPrecedence op.type) g) fun g =>
                    let r := applyBinary op.type (g.emit emitPopEbx)
                    if r.1 < 0 then some (-1, r.2) else climb tokens tab k p r.2 := by
              rw [climb]
              simp only [hat₀.head, some_bind]
              rw [if_neg (by rw [hop]; decide), if_neg hless]
            show climb tokens tab (k + 1) p g = _
            rw [hround, orFail_zero _ (h₁ k (by omega)), orFail_zero _ (h₂ k (by omega)), happly]
            exact h₃ k (by omega)
    refine ⟨hclimb, fun q g hat => ?_⟩
    cases c with
    | nil =>
      exact ⟨[], g, ⟨suffix_refl _, hat⟩, by simp, climbHigher_stops hat fun h => absurd h hnotbinary⟩
    | cons x c =>
      obtain ⟨op, ts⟩ := x
      have hat₀ : At tokens g (op :: (ts ++ (chainTokens c ++ t :: rest))) := by
        rw [← append_assoc]
        exact hat
      have hop : exprIsBinaryOp op.type = true := (hc (op, ts) mem_cons_self).1
      by_cases hle : exprGetPrecedence op.type ≤ q
      · refine ⟨(op, ts) :: c, g, ⟨suffix_refl _, hat⟩, ?_, climbHigher_stops hat₀ fun _ => hle⟩
        intro y hy
        cases hy
        exact hle
      · -- the recursive call takes the operator, so the loop goes on with a shorter chain
        obtain ⟨c₁, g₁, hstops₁, -, hshort, n₁, h₁⟩ := hclimb (exprGetPrecedence op.type) g hat
        have hlt : c₁.length < n := by
          rw [← hlength]
          exact hshort (op, ts) rfl le_rfl
        have hchain₁ : Chain tokens tab c₁ := fun y hy => hc y (hstops₁.suffix.subset hy)
        obtain ⟨c₂, g₂, hstops₂, hhead, n₂, h₂⟩ := (ih c₁.length hlt c₁ rfl hchain₁).2 q g₁ hstops₁.place
        refine ⟨c₂, g₂, ⟨hstops₂.suffix.trans hstops₁.suffix, hstops₂.place⟩, hhead, ?_⟩
        refine ⟨max n₁ n₂ + 2, fun k hk => ?_⟩
        obtain ⟨k, rfl⟩ : ∃ j, k = j + 2 := ⟨k - 2, by omega⟩
        have hcall : climbHigher tokens tab (k + 2) q g =
            orFail (climb tokens tab k (exprGetPrecedence op.type) g)
              (climbHigher tokens tab (k + 1) q) := by
          rw [climbHigher]
          simp only [hat₀.head, some_bind]
          rw [if_pos ⟨hop, Nat.lt_of_not_le hle⟩, parseExpr1, if_pos rfl]
        show climbHigher tokens tab (k + 2) q g = _
        rw [hcall, orFail_zero _ (h₁ k (by omega))]
        exact h₂ (k + 1) (by omega)

theorem acceptsExpr_chain (hts : AcceptsOperand tokens tab ts) (hc : Chain tokens tab c) :
    AcceptsExpr tokens tab (ts ++ chainTokens c) := by
  intro g t rest hat ht
  obtain ⟨u, rest', hnext, hu⟩ := hc.next ht rest
  rw [append_assoc, hnext] at hat
  obtain ⟨g₁, hat₁, hprimary⟩ := hts g u rest' hat hu
  rw [← hnext] at hat₁
  obtain ⟨c₂, g₂, hstops, hhead, -, hclimb⟩ := (climb_chain ht c.length c rfl hc).1 precNone g₁ hat₁
  have hnil : c₂ = [] := by
    cases c₂ with
    | nil => rfl
    | cons x c₂ => exact absurd (hhead x rfl) (Nat.not_lt_zero _)
  rw [hnil] at hstops
  refine ⟨g₂, hstops.place, Returns.succ ?_⟩
  exact Returns.orFail hprimary hclimb

section Operands

variable {t x : Token} {sym : Symbol} {ts : List Token}

theorem accepts_of_succ (h : ∀ g u rest, At tokens g (ts ++ u :: rest) → ¬ Attaches u.type → ∃ g',
      g'.pos = g.pos + ts.length ∧ ∀ k, parsePrimary tokens tab (k + 1) g = some (0, g')) :
    AcceptsOperand tokens tab ts := by
  intro g u rest hat hattaches
  obtain ⟨g', hpos, hreturns⟩ := h g u rest hat hattaches
  exact ⟨g', hat.advance hpos, Returns.of_succ hreturns⟩

theorem accepts_num (htype : t.type = .tokNumber) : AcceptsOperand tokens tab [t] := by
  refine accepts_of_succ fun g u rest hat _ => ?_
  refine ⟨(g.emit (emitMovEaxImm (BitVec.ofInt 32 t.intVal))).skip 1, rfl, fun k => ?_⟩
  rw [parsePrimary]
  simp only [At.head hat, some_bind, htype]

def loaded (sym : Symbol) (g : Gen) : Gen :=
  ({ g with
    lastIdentType := sym.type
    lastIdentPtrSize := if hasBaseType sym then symTypeSize sym.baseType else 4 }.emit
      (emitLoad sym)).skip 1

theorem accepts_var (htype : x.type = .tokIdent) (hsym : symtabLookup tab x.str = some sym) :
    AcceptsOperand tokens tab [x] := by
  refine accepts_of_succ fun g u rest hat hattaches => ?_
  have hnext : tokens[(loaded sym g).pos]? = some u := At.second hat
  refine ⟨loaded sym g, rfl, fun k => ?_⟩
  rw [parsePrimary_variable hat htype (fun h => hattaches (.inl h)) (fun h => hattaches (.inr (.inl h)))]
  have hplus : u.type ≠ .tokPlusplus := fun h => hattaches (.inr (.inr (.inl h)))
  have hminus : u.type ≠ .tokMinusminus := fun h => hattaches (.inr (.inr (.inr h)))
  unfold parseVariable
  rw [hsym]
  change (tokens[(loaded sym g).pos]?).bind _ = _
  rw [hnext, bind_some]
  split
  · exact absurd ‹_› hplus
  · exact absurd ‹_› hminus
  · rfl

theorem accepts_post (htype : x.type = .tokIdent) (hsym : symtabLookup tab x.str = some sym)
    (hop : t.type = .tokPlusplus ∨ t.type = .tokMinusminus) : AcceptsOperand tokens tab [x, t] := by
  refine accepts_of_succ fun g u rest hat _ => ?_
  have hnext : tokens[(loaded sym g).pos]? = some t := At.second hat
  have hvariable : ∀ k, parsePrimary tokens tab (k + 1) g = parseVariable tokens tab x.str g :=
    parsePrimary_variable hat htype (by rcases hop with hop | hop <;> rw [hop] <;> decide)
      (by rcases hop with hop | hop <;> rw [hop] <;> decide)
  unfold parseVariable at hvariable
  rw [hsym] at hvariable
  change ∀ k, parsePrimary tokens tab (k + 1) g = (tokens[(loaded sym g).pos]?).bind _ at hvariable
  rw [hnext, bind_some] at hvariable
  rcases hop with hop | hop
  · rw [hop] at hvariable
    exact ⟨_, rfl, hvariable⟩
  · rw [hop] at hvariable
    exact ⟨_, rfl, hvariable⟩

theorem accepts_pre (hop : t.type = .tokPlusplus ∨ t.type = .tokMinusminus ∨ t.type = .tokAnd)
    (htype : x.type = .tokIdent) (hsym : symtabLookup tab x.str = some sym) :
    AcceptsOperand tokens tab [t, x] := by
  refine accepts_of_succ fun g u rest hat _ => ?_
  have hnext : tokens[(g.skip 1).pos]? = some x := At.second hat
  have hprefixed : ∀ emit : Symbol → List Byte, parsePrefixed tokens tab emit (g.skip 1) =
      some (0, ((g.skip 1).emit (emit sym)).skip 1) := by
    intro emit
    unfold parsePrefixed
    simp only [hnext, hsym, htype, some_bind, ne_eq, not_true_eq_false, if_false]
  have hcall : ∃ emit, ∀ k,
      parsePrimary tokens tab (k + 1) g = parsePrefixed tokens tab emit (g.skip 1) := by
    have hhead := At.head hat
    rcases hop with hop | hop | hop
    · refine ⟨fun sym => emitPrefix sym (emitAddEaxImm 1) (emitIncrement sym), fun k => ?_⟩
      rw [parsePrimary]
      simp only [hhead, some_bind, hop]
    · refine ⟨fun sym => emitPrefix sym emitSubEaxOne (emitDecrement sym), fun k => ?_⟩
      rw [parsePrimary]
      simp only [hhead, some_bind, hop]
    · refine ⟨fun sym => emitLeaEaxEbp sym.offset, fun k => ?_⟩
      rw [parsePrimary]
      simp only [hhead, some_bind, hop]
  obtain ⟨emit, hcall⟩ := hcall
  exact ⟨((g.skip 1).emit (emit sym)).skip 1, rfl, fun k => (hcall k).trans (hprefixed emit)⟩

theorem accepts_unary (hop : t.type ∈ [TokenType.tokPlus, .tokMinus, .tokLognot, .tokNot, .tokStar])
    (h : AcceptsOperand tokens tab ts) : AcceptsOperand tokens tab (t :: ts) := by
  intro g u rest hat hattaches
  obtain ⟨g₁, hat₁, n, hn⟩ := h (g.skip 1) u rest (At.tail hat rfl) hattaches
  have hhead := At.head hat
  simp only [mem_cons, not_mem_nil, or_false] at hop
  by_cases hstar : t.type = .tokStar
  · refine ⟨g₁.emit emitMovEaxMemEax, hat₁, Returns.succ ⟨n, fun k hk => ?_⟩⟩
    show parsePrimary tokens tab (k + 1) g = _
    rw [parsePrimary]
    simp only [hhead, some_bind, hstar]
    exact orFail_zero _ (hn k hk)
  · refine ⟨g₁.emit (emitUnary t.type), hat₁, Returns.succ ⟨n, fun k hk => ?_⟩⟩
    show parsePrimary tokens tab (k + 1) g = _
    rw [parsePrimary]
    rcases hop with hop | hop | hop | hop | hop
    · simp only [hhead, some_bind, hop]
      exact orFail_zero _ (hn k hk)
    · simp only [hhead, some_bind, hop]
      exact orFail_zero _ (hn k hk)
    · simp only [hhead, some_bind, hop]
      exact orFail_zero _ (hn k hk)
    · simp only [hhead, some_bind, hop]
      exact orFail_zero _ (hn k hk)
    · exact absurd hop hstar

theorem accepts_paren {lp rp : Token} (hlp : lp.type = .tokLparen) (h : AcceptsExpr tokens tab ts)
    (hrp : rp.type = .tokRparen) : AcceptsOperand tokens tab (lp :: ts ++ [rp]) := by
  intro g u rest hat _
  have hat₀ : At tokens g (lp :: (ts ++ rp :: u :: rest)) := by
    simpa [append_assoc] using hat
  have hends : Ends rp := by
    unfold Ends
    rw [hrp]
    decide
  obtain ⟨g₁, hat₁, n, hn⟩ := h (g.skip 1) rp (u :: rest) (hat₀.tail rfl) hends
  refine ⟨g₁.skip 1, hat₁.tail rfl, Returns.succ ⟨n, fun k hk => ?_⟩⟩
  show parsePrimary tokens tab (k + 1) g = _
  rw [parsePrimary]
  simp only [hat₀.head, some_bind, hlp]
  rw [orFail_zero _ (hn k hk), hat₁.head]
  exact if_pos hrp

end Operands

def From (tokens : List Token) (p : Nat) (ts : List Token) : Prop :=
  ∃ before, tokens = before ++ ts ∧ before.length = p

section Scan

variable {t : Token} {ts ts' : List Token} {p : Nat}

theorem From.head (h : From tokens p (t :: ts)) : tokens[p]? = some t := by
  obtain ⟨before, rfl, rfl⟩ := h
  rw [getElem?_append_right le_rfl, Nat.sub_self]
  rfl

theorem From.advance (h : From tokens p (ts ++ ts')) : From tokens (p + ts.length) ts' := by
  obtain ⟨before, rfl, rfl⟩ := h
  exact ⟨before ++ ts, by rw [append_assoc], length_append⟩

theorem From.tail (h : From tokens p (t :: ts)) : From tokens (p + 1) ts :=
  From.advance (show From tokens p ([t] ++ ts) from h)

theorem From.le_length (h : From tokens p ts) : p + ts.length ≤ tokens.length := by
  obtain ⟨before, rfl, rfl⟩ := h
  exact length_append.symm.le

def Passes (tokens : List Token) (low : Nat) (ts : List Token) : Prop :=
  ∀ d p rest k, low ≤ d → From tokens p (ts ++ rest) →
    scanArg tokens (k + ts.length) d p = scanArg tokens k d (p + ts.length)

theorem passes_nil (low : Nat) : Passes tokens low [] := fun _ _ _ _ _ _ => rfl

theorem Passes.append {low : Nat} (h : Passes tokens low ts) (h' : Passes tokens low ts') :
    Passes tokens low (ts ++ ts') := by
  intro d p rest k hd hfrom
  rw [append_assoc] at hfrom
  rw [length_append, Nat.add_comm ts.length, ← Nat.add_assoc, h d p _ _ hd hfrom,
    h' d _ rest _ hd hfrom.advance, Nat.add_assoc]
  rw [Nat.add_comm ts.length]

theorem Passes.mono {low low' : Nat} (h : Passes tokens low ts) (hle : low ≤ low') :
    Passes tokens low' ts := fun d p rest k hd hfrom => h d p rest k (hle.trans hd) hfrom

theorem passes_token {low : Nat} (hlparen : t.type ≠ .tokLparen) (hrparen : t.type ≠ .tokRparen)
    (hcomma : t.type = .tokComma → 0 < low) : Passes tokens low [t] := by
  intro d p rest k hd hfrom
  have hhead : tokens[p]? = some t := From.head hfrom
  have hstep : scanArg tokens (k + 1) d p = scanArg tokens k d (p + 1) := by
    rw [scanArg, hhead]
    simp only [some_bind, hlparen, hrparen, false_and, if_false]
    rw [if_neg]
    rintro ⟨htype, rfl⟩
    have hlow := hcomma htype
    omega
  exact hstep

theorem passes_paren {lp rp : Token} (hlp : lp.type = .tokLparen) (h : Passes tokens 1 ts)
    (hrp : rp.type = .tokRparen) : Passes tokens 0 (lp :: ts ++ [rp]) := by
  intro d p rest k _ hfrom
  have hfrom₀ : From tokens p (lp :: (ts ++ rp :: rest)) := by
    simpa [append_assoc] using hfrom
  have hfrom₁ : From tokens (p + 1) (ts ++ rp :: rest) := hfrom₀.tail
  have hhead := hfrom₀.head
  have hlast := hfrom₁.advance.head
  have hopen : scanArg tokens (k + 1 + ts.length + 1) d p =
      scanArg tokens (k + 1 + ts.length) (d + 1) (p + 1) := by
    rw [scanArg, hhead]
    dsimp only [some_bind]
    rw [hlp, if_neg (by simp), if_pos rfl, if_neg (by simp), if_neg (by simp)]
  have hclose : scanArg tokens (k + 1) (d + 1) (p + 1 + ts.length) =
      scanArg tokens k d (p + 1 + ts.length + 1) := by
    rw [scanArg, hlast]
    dsimp only [some_bind]
    rw [hrp, if_neg (by simp), if_neg (by simp), if_pos ⟨rfl, Nat.succ_pos d⟩, if_neg (by simp),
      Nat.add_sub_cancel]
  have hlength : (lp :: ts ++ [rp]).length = ts.length + 2 := by simp
  rw [hlength, show k + (ts.length + 2) = k + 1 + ts.length + 1 by omega, hopen,
    h (d + 1) (p + 1) _ _ (Nat.le_add_left 1 d) hfrom₁, hclose]
  congr 1
  omega

theorem scanArg_ends (h : Passes tokens 0 ts) (hfrom : From tokens p (ts ++ t :: ts'))
    (ht : t.type = .tokComma ∨ t.type = .tokRparen) :
    scanArg tokens (tokens.length + 1) 0 p = some (p + ts.length) := by
  have hlength := hfrom.le_length
  rw [length_append, length_cons] at hlength
  obtain ⟨k, hk⟩ : ∃ k, tokens.length + 1 = k + 1 + ts.length := ⟨tokens.length - ts.length, by omega⟩
  rw [hk, h 0 p _ _ le_rfl hfrom, scanArg, hfrom.advance.head]
  dsimp only [some_bind]
  rcases ht with ht | ht
  · simp [ht]
  · rw [if_pos ⟨ht, rfl⟩]

def ArgsAt (tokens : List Token) (tab : Symtab) (ps : List Nat) : Prop :=
  ∀ q ∈ ps, ∃ u t rest, From tokens q (u ++ t :: rest) ∧ AcceptsExpr tokens tab u ∧ Ends t

def ScansArgs (tokens : List Token) (tab : Symtab) (n : Nat) (ts : List Token) : Prop :=
  ∀ p rp rest found k, From tokens p (ts ++ rp :: rest) → rp.type = .tokRparen →
    found.length + n ≤ maxFuncArgs → n < k →
    ∃ ps, scanArgs tokens k found p = some (some (found ++ ps), p + ts.length) ∧ ps.length = n ∧
      ArgsAt tokens tab ps

theorem scansArgs_nil : ScansArgs tokens tab 0 [] := by
  intro p rp rest found k hfrom hrp _ hk
  obtain ⟨k, rfl⟩ : ∃ j, k = j + 1 := ⟨k - 1, by omega⟩
  refine ⟨[], ?_, rfl, fun q hq => absurd hq not_mem_nil⟩
  rw [scanArgs, From.head hfrom]
  dsimp only [some_bind]
  rw [if_pos (.inl hrp), append_nil]
  rfl

theorem ends_separator (ht : t.type = .tokComma ∨ t.type = .tokRparen) : Ends t := by
  unfold Ends
  rcases ht with ht | ht <;> rw [ht] <;> decide

def Starts (ts : List Token) : Prop := ∃ t ts', ts = t :: ts' ∧ t.type ≠ .tokRparen ∧ t.type ≠ .tokEof

theorem scanArgs_step {k : Nat} {found : List Nat} (hstarts : Starts ts) (h : Passes tokens 0 ts)
    (hfrom : From tokens p (ts ++ t :: ts')) (ht : t.type = .tokComma ∨ t.type = .tokRparen)
    (hfound : found.length < maxFuncArgs) : scanArgs tokens (k + 1) found p = scanArgs tokens k (found ++ [p])
      (if t.type = .tokComma then p + ts.length + 1 else p + ts.length) := by
  obtain ⟨first, ts₁, rfl, hrparen, heof⟩ := hstarts
  rw [scanArgs, From.head hfrom]
  dsimp only [some_bind]
  rw [if_neg fun h => h.elim hrparen heof, if_neg (not_le.mpr hfound), scanArg_ends h hfrom ht,
    some_bind, hfrom.advance.head, some_bind]

theorem scansArgs_last (hstarts : Starts ts) (h : Passes tokens 0 ts)
    (haccepts : AcceptsExpr tokens tab ts) : ScansArgs tokens tab 1 ts := by
  intro p rp rest found k hfrom hrp hcount hk
  obtain ⟨k, rfl⟩ : ∃ j, k = j + 2 := ⟨k - 2, by omega⟩
  refine ⟨[p], ?_, rfl, ?_⟩
  · have hcomma : rp.type ≠ .tokComma := by
      rw [hrp]
      decide
    rw [scanArgs_step hstarts h hfrom (.inr hrp) (by omega), if_neg hcomma, scanArgs, hfrom.advance.head]
    dsimp only [some_bind]
    rw [if_pos (.inl hrp)]
  · intro q hq
    rw [mem_singleton.mp hq]
    exact ⟨ts, rp, rest, hfrom, haccepts, ends_separator (.inr hrp)⟩

theorem scansArgs_more {n : Nat} (hstarts : Starts ts) (h : Passes tokens 0 ts)
    (haccepts : AcceptsExpr tokens tab ts) (hcomma : t.type = .tokComma)
    (hs : ScansArgs tokens tab n ts') : ScansArgs tokens tab (n + 1) (ts ++ t :: ts') := by
  intro p rp rest found k hfrom hrp hcount hk
  rw [append_assoc, cons_append] at hfrom
  obtain ⟨k, rfl⟩ : ∃ j, k = j + 1 := ⟨k - 1, by omega⟩
  have hbehind : From tokens (p + ts.length + 1) (ts' ++ rp :: rest) := hfrom.advance.tail
  have hfound : (found ++ [p]).length = found.length + 1 := by simp
  obtain ⟨ps, hps, hlength, hargs⟩ :=
    hs (p + ts.length + 1) rp rest (found ++ [p]) k hbehind hrp (by omega) (by omega)
  refine ⟨p :: ps, ?_, by rw [length_cons, hlength], ?_⟩
  · rw [scanArgs_step hstarts h hfrom (.inl hcomma) (by omega), if_pos hcomma, hps,
      append_assoc, length_append, length_cons]
    congr 2
    omega
  · intro q hq
    rcases mem_cons.mp hq with rfl | hq
    · exact ⟨ts, t, _, hfrom, haccepts, ends_separator (.inl hcomma)⟩
    · exact hargs q hq

theorem pushArgs_returns {ps : List Nat} (h : ArgsAt tokens tab ps) (g : Gen) :
    ∃ g', g'.pos = g.pos ∧ Returns (fun k => pushArgs tokens tab k ps g) (0, g') := by
  induction ps generalizing g with
  | nil => exact ⟨g, rfl, Returns.of_succ fun k => by rw [pushArgs]⟩
  | cons q ps ih =>
    obtain ⟨u, t, rest, hfrom, haccepts, ht⟩ := h q mem_cons_self
    obtain ⟨g₁, -, hexpr⟩ := haccepts { g with pos := q } t rest hfrom ht
    obtain ⟨g₂, hpos, hrest⟩ := ih (fun q hq => h q (mem_cons_of_mem _ hq))
      ({ g₁ with pos := g.pos }.emit emitPushEax)
    refine ⟨g₂, hpos, Returns.succ ?_⟩
    exact Returns.orFail (hexpr.keepPos g.pos) hrest

end Scan

theorem registerExternalSymbol_returns {name : CString} (h : name.length ≤ 30) (g : Gen) :
    ∃ idx g', registerExternalSymbol g name = some (idx, g') ∧ g'.pos = g.pos := by
  unfold registerExternalSymbol
  split
  · exact ⟨_, _, rfl, rfl⟩
  · split
    · exact ⟨_, _, rfl, rfl⟩
    · have hstored : strncpy name 31 = some name := if_pos (by omega)
      rw [hstored]
      exact ⟨_, _, rfl, rfl⟩

theorem addRelocation_pos (g : Gen) (offset type idx : Nat) :
    (addRelocation g offset type idx).pos = g.pos := by
  unfold addRelocation
  split <;> rfl

theorem emitCall_returns {name : CString} (h : name.length ≤ 30) (g : Gen) (funcPos argSizes : Nat) :
    ∃ g', emitCall g name funcPos argSizes = some (0, g') ∧ g'.pos = g.pos := by
  have hclean : ∀ (g₁ : Gen) bytes, g₁.pos = g.pos →
      (if argSizes > 0 then g₁.emit bytes else g₁).pos = g.pos := by
    intro g₁ bytes hpos
    split
    · exact hpos
    · exact hpos
  unfold emitCall
  dsimp only
  split
  · obtain ⟨idx, g₁, hregister, hpos⟩ := registerExternalSymbol_returns h (g.emit (0xE8 :: wordBytes 0))
    rw [hregister]
    exact ⟨_, rfl, hclean _ _ (by rw [addRelocation_pos, hpos]; rfl)⟩
  · exact ⟨_, rfl, hclean _ _ rfl⟩

theorem accepts_call {f lp rp : Token} {n : Nat} (htype : f.type = .tokIdent)
    (hname : f.str.length ≤ 30) (hlp : lp.type = .tokLparen) (h : ScansArgs tokens tab n ts)
    (hn : n ≤ maxFuncArgs) (hcount : n ≤ ts.length) (hrp : rp.type = .tokRparen) :
    AcceptsOperand tokens tab (f :: lp :: ts ++ [rp]) := by
  intro g u rest hat _
  have hat₀ : At tokens g (f :: lp :: (ts ++ rp :: u :: rest)) := by
    simpa [append_assoc] using hat
  have hfrom : From tokens (g.pos + 2) (ts ++ rp :: u :: rest) := From.tail (From.tail hat₀)
  have hlength := hfrom.le_length
  rw [length_append] at hlength
  obtain ⟨ps, hscan, hps, hargs⟩ := h (g.pos + 2) rp (u :: rest) [] (tokens.length + 1) hfrom hrp
    (by rw [length_nil, Nat.zero_add]; exact hn) (by omega)
  have hreverse : ArgsAt tokens tab ps.reverse := fun q hq => hargs q (mem_reverse.mp hq)
  obtain ⟨g₁, hpos, m, hm⟩ := pushArgs_returns hreverse { g with pos := g.pos + 2 + ts.length }
  have hclose : tokens[g₁.pos]? = some rp := by
    rw [hpos]
    exact hfrom.advance.head
  obtain ⟨g₂, hcall, hpos₂⟩ :=
    emitCall_returns hname (g₁.skip 1) (lookupFunction g.funcTable f.str) (4 * ps.length)
  refine ⟨g₂, ?_, Returns.succ ⟨m, fun k hk => ?_⟩⟩
  · have hbehind := hfrom.advance.tail
    have hsame : g₂.pos = g.pos + 2 + ts.length + 1 := by
      rw [hpos₂]
      exact congrArg (· + 1) hpos
    rw [← hsame] at hbehind
    exact hbehind
  · show parsePrimary tokens tab (k + 1) g = _
    rw [parsePrimary]
    simp only [hat₀.head, hat₀.second, some_bind, htype, hlp, hscan, nil_append]
    rw [orFail_zero _ (hm k hk), hclose, some_bind, if_pos hrp]
    exact hcall

variable (tokens tab)

def Reads : PhraseKind → List Token → Prop
  | .operand, ts => AcceptsOperand tokens tab ts ∧ Passes tokens 0 ts ∧ Starts ts
  | .expr, ts =>
    (∃ ts₀ c, ts = ts₀ ++ chainTokens c ∧ AcceptsOperand tokens tab ts₀ ∧ Chain tokens tab c) ∧
      Passes tokens 0 ts ∧ Starts ts
  | .args n, ts => ScansArgs tokens tab n ts ∧ Passes tokens 1 ts ∧ n ≤ ts.length

variable {tokens tab}

theorem Reads.acceptsExpr (h : Reads tokens tab .expr ts) : AcceptsExpr tokens tab ts := by
  obtain ⟨⟨ts₀, c, rfl, hts₀, hc⟩, -, -⟩ := h
  exact acceptsExpr_chain hts₀ hc

theorem Starts.append (h : Starts ts) (ts' : List Token) : Starts (ts ++ ts') := by
  obtain ⟨t, ts₁, rfl, hrparen, heof⟩ := h
  exact ⟨t, ts₁ ++ ts', rfl, hrparen, heof⟩

theorem Starts.length_pos (h : Starts ts) : 0 < ts.length := by
  obtain ⟨t, ts₁, rfl, -, -⟩ := h
  exact Nat.succ_pos _

variable (hdeclared : ∀ x, declared x → ∃ sym, symtabLookup tab x = some sym)

include hdeclared

theorem Phrase.reads {kind : PhraseKind} (h : Phrase declared kind ts) : Reads tokens tab kind ts := by
  -- a token that neither opens, closes nor separates, as what starts an operand
  have htoken : ∀ {t : Token} {type : TokenType}, t.type = type → type ≠ .tokLparen →
      type ≠ .tokRparen → type ≠ .tokComma → Passes tokens 0 [t] := by
    rintro t _ rfl hlparen hrparen hcomma
    exact passes_token hlparen hrparen fun h => absurd h hcomma
  induction h with
  | @num t htype =>
    exact ⟨accepts_num htype, htoken htype (by decide) (by decide) (by decide), t, [], rfl,
      by rw [htype]; decide, by rw [htype]; decide⟩
  | @var x htype hx =>
    obtain ⟨sym, hsym⟩ := hdeclared _ hx
    exact ⟨accepts_var htype hsym, htoken htype (by decide) (by decide) (by decide), x, [], rfl,
      by rw [htype]; decide, by rw [htype]; decide⟩
  | @post x t htype hx hop =>
    obtain ⟨sym, hsym⟩ := hdeclared _ hx
    have hfirst := htoken htype (by decide) (by decide) (by decide)
    have hsecond : Passes tokens 0 [t] := by
      rcases hop with hop | hop <;> exact htoken hop (by decide) (by decide) (by decide)
    exact ⟨accepts_post htype hsym hop, hfirst.append hsecond, x, [t], rfl,
      by rw [htype]; decide, by rw [htype]; decide⟩
  | @pre t x hop htype hx =>
    obtain ⟨sym, hsym⟩ := hdeclared _ hx
    have hsecond := htoken htype (by decide) (by decide) (by decide)
    have hfirst : Passes tokens 0 [t] := by
      rcases hop with hop | hop | hop <;> exact htoken hop (by decide) (by decide) (by decide)
    refine ⟨accepts_pre hop htype hsym, hfirst.append hsecond, t, [x], rfl, ?_, ?_⟩
    · rcases hop with hop | hop | hop <;> rw [hop] <;> decide
    · rcases hop with hop | hop | hop <;> rw [hop] <;> decide
  | @unary t ts hop _ ih =>
    obtain ⟨haccepts, hpasses, -⟩ := ih
    have hmem := hop
    simp only [mem_cons, not_mem_nil, or_false] at hmem
    have hfirst : Passes tokens 0 [t] := by
      rcases hmem with h | h | h | h | h <;> exact htoken h (by decide) (by decide) (by decide)
    refine ⟨accepts_unary hop haccepts, hfirst.append hpasses, t, ts, rfl, ?_, ?_⟩
    · rcases hmem with h | h | h | h | h <;> rw [h] <;> decide
    · rcases hmem with h | h | h | h | h <;> rw [h] <;> decide
  | @paren lp rp ts hlp _ hrp ih =>
    refine ⟨accepts_paren hlp ih.acceptsExpr hrp, ?_, lp, ts ++ [rp], rfl, ?_, ?_⟩
    · exact passes_paren hlp (ih.2.1.mono (Nat.zero_le 1)) hrp
    · rw [hlp]; decide
    · rw [hlp]; decide
  | @call f lp rp ts n htype hname hlp _ hn hrp ih =>
    obtain ⟨hscans, hpasses, hcount⟩ := ih
    have hfirst := htoken htype (by decide) (by decide) (by decide)
    refine ⟨accepts_call htype hname hlp hscans hn hcount hrp, ?_, f, lp :: ts ++ [rp], rfl, ?_, ?_⟩
    · exact hfirst.append (passes_paren hlp hpasses hrp)
    · rw [htype]; decide
    · rw [htype]; decide
  | @single ts _ ih =>
    obtain ⟨haccepts, hpasses, hstarts⟩ := ih
    refine ⟨⟨ts, [], (append_nil ts).symm, haccepts, ?_⟩, hpasses, hstarts⟩
    intro x hx
    exact absurd hx not_mem_nil
  | @binary ts ts' t _ hop _ ihl ihr =>
    obtain ⟨⟨ts₀, c, rfl, hts₀, hc⟩, hpasses, hstarts⟩ := ihl
    obtain ⟨haccepts, hpasses', -⟩ := ihr
    have htoken' : Passes tokens 0 [t] := by
      refine passes_token ?_ ?_ ?_
      · intro h
        rw [h] at hop
        exact absurd hop (by decide)
      · intro h
        rw [h] at hop
        exact absurd hop (by decide)
      · intro h
        rw [h] at hop
        exact absurd hop (by decide)
    refine ⟨⟨ts₀, c ++ [(t, ts')], ?_, hts₀, ?_⟩, ?_, hstarts.append _⟩
    · simp [chainTokens, append_assoc]
    · intro x hx
      rcases mem_append.mp hx with hx | hx
      · exact hc x hx
      · rw [mem_singleton.mp hx]
        exact ⟨hop, haccepts⟩
    · exact hpasses.append (htoken'.append hpasses')
  | noArgs => exact ⟨scansArgs_nil, passes_nil 1, Nat.zero_le _⟩
  | lastArg _ ih =>
    exact ⟨scansArgs_last ih.2.2 ih.2.1 ih.acceptsExpr, ih.2.1.mono (Nat.zero_le 1), ih.2.2.length_pos⟩
  | @moreArgs ts ts' t n _ hcomma _ ih ihs =>
    obtain ⟨hscans, hpasses, hcount⟩ := ihs
    have hseparator : Passes tokens 1 [t] := by
      refine passes_token ?_ ?_ fun _ => Nat.one_pos
      · rw [hcomma]; decide
      · rw [hcomma]; decide
    refine ⟨scansArgs_more ih.2.2 ih.2.1 ih.acceptsExpr hcomma hscans, ?_, ?_⟩
    · exact (ih.2.1.mono (Nat.zero_le 1)).append (hseparator.append hpasses)
    · rw [length_append, length_cons]
      omega

theorem Phrase.exprParse {g : Gen} (h : Phrase declared .expr ts) (hat : At tokens g (ts ++ t :: rest))
    (ht : Ends t) : ∃ g', At tokens g' (t :: rest) ∧ Returns (fun k => exprParse tokens tab k g) (0, g') :=
  (h.reads hdeclared).acceptsExpr g t rest hat ht

end Accept

end JexOs.Tcc
