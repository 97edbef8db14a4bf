import JexOs.Tcc

/-!
# Where the parser of expressions reads

On an array that ends with `TOK_EOF` the parser of expressions stays in the array and comes back, but for the loop
over an argument that is not closed.
-/

namespace JexOs.Tcc

open List Option

structure EndsAt (tokens : List Token) (e : Nat) : Prop where
  length : tokens.length = e + 1
  eof : typeAt tokens e = some .tokEof
  first : ∀ p, typeAt tokens p = some .tokEof → e ≤ p

section EndsAt

variable {tokens : List Token} {e p : Nat}

variable (h : EndsAt tokens e)

include h

theorem EndsAt.read (hp : p ≤ e) : ∃ tok, tokens[p]? = some tok ∧ (tok.type ≠ .tokEof → p < e) := by
  have hlt : p < tokens.length := by
    rw [h.length]
    omega
  refine ⟨tokens[p], getElem?_eq_getElem hlt, fun htype => ?_⟩
  by_contra hlast
  obtain rfl : p = e := by omega
  have heof := h.eof
  unfold typeAt at heof
  rw [getElem?_eq_getElem hlt] at heof
  exact htype (some.inj heof)

theorem EndsAt.le_of_read {tok : Token} (htok : tokens[p]? = some tok) : p ≤ e := by
  have hlt := (List.getElem?_eq_some_iff.mp htok).1
  rw [h.length] at hlt
  omega

theorem EndsAt.le_of_typeAt {type : TokenType} (htype : typeAt tokens p = some type) : p ≤ e := by
  obtain ⟨tok, htok, -⟩ := map_eq_some_iff.mp htype
  exact h.le_of_read htok

theorem EndsAt.lt_of_read {tok : Token} (htok : tokens[p]? = some tok)
    (htype : tok.type ≠ .tokEof) : p < e := by
  obtain ⟨tok', htok', hlt⟩ := h.read (h.le_of_read htok)
  obtain rfl : tok = tok' := some.inj (htok.symm.trans htok')
  exact hlt htype

end EndsAt

def countTokens (tokens : List Token) (type : TokenType) (p q : Nat) : Nat :=
  ((tokens.drop p).take (q - p)).countP fun t => t.type = type

/-- From index `p` on a parenthesis or a comma comes that ends the argument: as many parentheses are
closed in front of it as are opened. -/
def Closed (tokens : List Token) (p : Nat) : Prop :=
  ∃ q, p ≤ q ∧ (typeAt tokens q = some .tokRparen ∨ typeAt tokens q = some .tokComma) ∧
    countTokens tokens .tokLparen p q ≤ countTokens tokens .tokRparen p q

/-- The scan of the arguments from `p` on comes to argument `k` at index `q`. -/
inductive ArgAt (tokens : List Token) (p : Nat) : (k q : Nat) → Prop where
  | first : ArgAt tokens p 0 p
  | next {k q stop : Nat} (h : ArgAt tokens p k q) (hopen : typeAt tokens q ≠ some .tokRparen)
      (hread : typeAt tokens q ≠ some .tokEof)
      (hstop : scanArg tokens (tokens.length + 1) 0 q = some stop)
      (hcomma : typeAt tokens stop = some .tokComma) : ArgAt tokens p (k + 1) (stop + 1)
  | last {k q stop : Nat} (h : ArgAt tokens p k q) (hopen : typeAt tokens q ≠ some .tokRparen)
      (hread : typeAt tokens q ≠ some .tokEof)
      (hstop : scanArg tokens (tokens.length + 1) 0 q = some stop)
      (hrparen : typeAt tokens stop = some .tokRparen) : ArgAt tokens p (k + 1) stop

def ArgsClosed (tokens : List Token) (p : Nat) : Prop :=
  ∀ k q, ArgAt tokens p k q → k < maxFuncArgs → typeAt tokens q ≠ some .tokRparen →
    typeAt tokens q ≠ some .tokEof → Closed tokens q

section Scan

variable {tokens : List Token} {e p q : Nat} {type : TokenType} {tok : Token} {depth fuel : Nat}

theorem typeAt_eq (h : tokens[p]? = some tok) : typeAt tokens p = some tok.type := by
  unfold typeAt
  rw [h]
  rfl

theorem countTokens_self : countTokens tokens type p p = 0 := by
  unfold countTokens
  rw [Nat.sub_self, take_zero, countP_nil]

theorem countTokens_cons (h : tokens[p]? = some tok) (hlt : p < q) :
    countTokens tokens type p q = countTokens tokens type (p + 1) q + if tok.type = type then 1 else 0 := by
  obtain ⟨hp, rfl⟩ := List.getElem?_eq_some_iff.mp h
  obtain ⟨n, rfl⟩ : ∃ n, q = p + (n + 1) := ⟨q - p - 1, by omega⟩
  unfold countTokens
  rw [drop_eq_getElem_cons hp, Nat.add_sub_cancel_left, take_succ_cons, countP_cons,
    show p + (n + 1) - (p + 1) = n by omega]
  simp only [decide_eq_true_eq]

def depthBehind (type : TokenType) (depth : Nat) : Nat :=
  let depth := if type = .tokLparen then depth + 1 else depth
  if type = .tokRparen ∧ depth > 0 then depth - 1 else depth

theorem scanArg_succ (htok : tokens[p]? = some tok) : scanArg tokens (fuel + 1) depth p =
      if tok.type = .tokRparen ∧ depth = 0 then some p
      else if tok.type = .tokComma ∧ depthBehind tok.type depth = 0 then some p
      else scanArg tokens fuel (depthBehind tok.type depth) (p + 1) := by
  rw [scanArg, htok]
  rfl

theorem depthBehind_add (hclose : ¬ (type = .tokRparen ∧ depth = 0)) :
    depthBehind type depth + (if type = .tokRparen then 1 else 0) =
      depth + (if type = .tokLparen then 1 else 0) := by
  unfold depthBehind
  by_cases hlparen : type = .tokLparen
  · simp [hlparen]
  · by_cases hrparen : type = .tokRparen
    · have hpos : 0 < depth := Nat.pos_of_ne_zero fun hzero => hclose ⟨hrparen, hzero⟩
      simp [hrparen, hpos]
      omega
    · simp [hlparen, hrparen]

theorem scanArg_stops (hend : EndsAt tokens e) (hle : p ≤ q)
    (hstop : typeAt tokens q = some .tokRparen ∨ typeAt tokens q = some .tokComma)
    (hdepth : depth + countTokens tokens .tokLparen p q ≤ countTokens tokens .tokRparen p q)
    (hfuel : q - p < fuel) :
    ∃ stop, scanArg tokens fuel depth p = some stop ∧ p ≤ stop ∧
      (typeAt tokens stop = some .tokRparen ∨ typeAt tokens stop = some .tokComma) := by
  induction fuel generalizing p depth with
  | zero => exact absurd hfuel (Nat.not_lt_zero _)
  | succ fuel ih =>
    have hq : q ≤ e := by
      rcases hstop with h | h
      · exact hend.le_of_typeAt h
      · exact hend.le_of_typeAt h
    obtain ⟨tok, htok, -⟩ := hend.read (hle.trans hq)
    have htype := typeAt_eq htok
    rw [scanArg_succ htok]
    by_cases hclose : tok.type = .tokRparen ∧ depth = 0
    · rw [if_pos hclose]
      exact ⟨p, rfl, Nat.le_refl p, .inl (by rw [htype, hclose.1])⟩
    · rw [if_neg hclose]
      by_cases hcomma : tok.type = .tokComma ∧ depthBehind tok.type depth = 0
      · rw [if_pos hcomma]
        exact ⟨p, rfl, Nat.le_refl p, .inr (by rw [htype, hcomma.1])⟩
      · rw [if_neg hcomma]
        have hlt : p < q := by
          refine Nat.lt_of_le_of_ne hle fun heq => ?_
          subst heq
          rw [countTokens_self, countTokens_self] at hdepth
          obtain rfl : depth = 0 := by omega
          rw [htype] at hstop
          rcases hstop with hstop | hstop
          · exact hclose ⟨some.inj hstop, rfl⟩
          · have htype' : tok.type = .tokComma := some.inj hstop
            exact hcomma ⟨htype', by rw [htype']; rfl⟩
        have hopen : countTokens tokens .tokLparen p q = _ := countTokens_cons htok hlt
        have hshut : countTokens tokens .tokRparen p q = _ := countTokens_cons htok hlt
        have hbehind := depthBehind_add hclose
        obtain ⟨stop, hscan, hstop', htypes⟩ :=
          @ih (p + 1) (depthBehind tok.type depth) hlt (by omega) (by omega)
        exact ⟨stop, hscan, by omega, htypes⟩

theorem Closed.scanArg (h : Closed tokens p) (hend : EndsAt tokens e) :
    ∃ stop, scanArg tokens (tokens.length + 1) 0 p = some stop ∧ p ≤ stop ∧
      (typeAt tokens stop = some .tokRparen ∨ typeAt tokens stop = some .tokComma) := by
  obtain ⟨q, hle, hstop, hcount⟩ := h
  have hq : q ≤ e := by
    rcases hstop with h | h
    · exact hend.le_of_typeAt h
    · exact hend.le_of_typeAt h
  have hlength := hend.length
  exact scanArg_stops hend hle hstop (by omega) (by omega)

structure Scanned (tokens : List Token) (e p : Nat) (args : Option (List Nat)) (behind : Nat) : Prop where
  low : p ≤ behind
  high : behind ≤ e
  args : ∀ as, args = some as → as.length ≤ maxFuncArgs ∧ ∀ a ∈ as, p ≤ a ∧ a ≤ e

theorem scanArgs_scanned (hend : EndsAt tokens e) (hclosed : ArgsClosed tokens p)
    {args : List Nat} (hat : ArgAt tokens p args.length q) (hq : q ≤ e) (hlow : p ≤ q)
    (hcount : args.length ≤ maxFuncArgs) (hargs : ∀ a ∈ args, p ≤ a ∧ a ≤ e) (hfuel : e - q < fuel) :
    ∃ result behind, scanArgs tokens fuel args q = some (result, behind) ∧
    Scanned tokens e p result behind := by
  induction fuel generalizing args q with
  | zero => exact absurd hfuel (Nat.not_lt_zero _)
  | succ fuel ih =>
    obtain ⟨tok, htok, -⟩ := hend.read hq
    have htype := typeAt_eq htok
    rw [scanArgs, htok, some_bind]
    by_cases hdone : tok.type = .tokRparen ∨ tok.type = .tokEof
    · rw [if_pos hdone]
      refine ⟨_, _, rfl, ⟨hlow, hq, ?_⟩⟩
      rintro as ⟨⟩
      exact ⟨hcount, hargs⟩
    · rw [if_neg hdone]
      by_cases hmany : args.length ≥ maxFuncArgs
      · rw [if_pos hmany]
        exact ⟨_, _, rfl, ⟨hlow, hq, fun as h => nomatch h⟩⟩
      · rw [if_neg hmany]
        have hnot := not_or.mp hdone
        have hopen : typeAt tokens q ≠ some .tokRparen := by
          rw [htype]
          exact fun h => hnot.1 (some.inj h)
        have hnoeof : typeAt tokens q ≠ some .tokEof := by
          rw [htype]
          exact fun h => hnot.2 (some.inj h)
        obtain ⟨stop, hscan, hstop, htypes⟩ :=
          (hclosed _ q hat (Nat.lt_of_not_le hmany) hopen hnoeof).scanArg hend
        have hargs' : ∀ a ∈ args ++ [q], p ≤ a ∧ a ≤ e := by
          intro a ha
          rcases mem_append.mp ha with ha | ha
          · exact hargs a ha
          · rw [mem_singleton.mp ha]
            exact ⟨hlow, hq⟩
        have hlength : (args ++ [q]).length = args.length + 1 := length_append
        have hcount' : (args ++ [q]).length ≤ maxFuncArgs := by omega
        rw [hscan, some_bind]
        rcases htypes with hrparen | hcomma
        · have hle := hend.le_of_typeAt hrparen
          have hne : stop ≠ q := by
            rintro rfl
            exact hnot.1 (some.inj (htype.symm.trans hrparen))
          obtain ⟨close, hclose, hctype⟩ := map_eq_some_iff.mp hrparen
          rw [hclose, some_bind, if_neg (by rw [hctype]; decide)]
          exact ih (by rw [hlength]; exact hat.last hopen hnoeof hscan hrparen) hle
            (by omega) hcount' hargs' (by omega)
        · obtain ⟨comma, hread, hctype⟩ := map_eq_some_iff.mp hcomma
          have hlt := hend.lt_of_read hread (by rw [hctype]; decide)
          rw [hread, some_bind, if_pos hctype]
          exact ih (by rw [hlength]; exact hat.next hopen hnoeof hscan hcomma) hlt
            (by omega) hcount' hargs' (by omega)

theorem ArgsClosed.scanArgs (hclosed : ArgsClosed tokens p) (hend : EndsAt tokens e) (hp : p ≤ e) :
    ∃ result behind, scanArgs tokens (tokens.length + 1) [] p = some (result, behind) ∧
      Scanned tokens e p result behind :=
  scanArgs_scanned hend hclosed .first hp le_rfl (Nat.zero_le _)
    (fun _ ha => absurd ha not_mem_nil) (by rw [hend.length]; omega)

end Scan
/-- The name is in the table of functions, or the table is full, or the name fits in its field. -/
def Enterable (g : Gen) (name : CString) : Prop :=
  maxFuncs ≤ g.funcTable.length ∨ (∃ f ∈ g.funcTable, f.name = name) ∨ name.length ≤ 30

mutual

/-- Every call that `parsePrimary` comes to has its arguments closed, and a name that can be entered. -/
def PrimaryInside (tokens : List Token) (tab : Symtab) : (fuel : Nat) → Gen → Prop
  | 0, _ => True
  | fuel + 1, g =>
    match tokens[g.pos]? with
    | none => True
    | some tok =>
      match tok.type with
      | .tokIdent =>
        match typeAt tokens (g.pos + 1) with
        | some .tokLparen =>
          ArgsClosed tokens (g.pos + 2) ∧
          ∀ args behind,
            scanArgs tokens (tokens.length + 1) [] (g.pos + 2) = some (some args, behind) →
            ArgsInside tokens tab fuel args.reverse { g with pos := behind } ∧
            ∀ r g', pushArgs tokens tab fuel args.reverse { g with pos := behind } =
              some (r, g') → 0 ≤ r → lookupFunction g.funcTable tok.str = 0 → Enterable g' tok.str
        | some .tokLbracket =>
          ∀ sym, symtabLookup tab tok.str = some sym → 0 < sym.arraySize →
            ExprInside tokens tab fuel false precNone (g.skip 2)
        | _ => True
      | .tokLparen => ExprInside tokens tab fuel false precNone (g.skip 1)
      | .tokStar | .tokPlus | .tokMinus | .tokLognot | .tokNot =>
        PrimaryInside tokens tab fuel (g.skip 1)
      | _ => True

def ArgsInside (tokens : List Token) (tab : Symtab) : (fuel : Nat) → List Nat → Gen → Prop
  | 0, _, _ => True
  | _ + 1, [], _ => True
  | fuel + 1, arg :: args, g =>
    ExprInside tokens tab fuel false precNone { g with pos := arg } ∧
    ∀ r g', keepPos g.pos (parseExpr1 tokens tab fuel false precNone { g with pos := arg }) =
      some (r, g') → 0 ≤ r → ArgsInside tokens tab fuel args (g'.emit emitPushEax)

def ExprInside (tokens : List Token)
    (tab : Symtab) : (fuel : Nat) → (lhsParsed : Bool) → (minPrec : Nat) → Gen → Prop
  | 0, _, _, _ => True
  | fuel + 1, lhsParsed, minPrec, g =>
    if lhsParsed then ClimbInside tokens tab fuel minPrec g
    else PrimaryInside tokens tab fuel g ∧
      ∀ r g', parsePrimary tokens tab fuel g = some (r, g') → 0 ≤ r →
        ClimbInside tokens tab fuel minPrec g'

def ClimbInside (tokens : List Token) (tab : Symtab) : (fuel minPrec : Nat) → Gen → Prop
  | 0, _, _ => True
  | fuel + 1, minPrec, g =>
    ∀ tok, tokens[g.pos]? = some tok → exprIsBinaryOp tok.type = true →
      minPrec ≤ exprGetPrecedence tok.type →
      let g := { g.skip 1 with leftIsPointer := decide (g.lastIdentType = SymType.ptr) }
      PrimaryInside tokens tab fuel (g.emit emitPushEax) ∧
      ∀ r g₁, parsePrimary tokens tab fuel (g.emit emitPushEax) = some (r, g₁) → 0 ≤ r →
        HigherInside tokens tab fuel (exprGetPrecedence tok.type) g₁ ∧
        ∀ r g₂, climbHigher tokens tab fuel (exprGetPrecedence tok.type) g₁ = some (r, g₂) → 0 ≤ r →
          0 ≤ (applyBinary tok.type (g₂.emit emitPopEbx)).1 →
          ClimbInside tokens tab fuel minPrec (applyBinary tok.type (g₂.emit emitPopEbx)).2

def HigherInside (tokens : List Token) (tab : Symtab) : (fuel opPrec : Nat) → Gen → Prop
  | 0, _, _ => True
  | fuel + 1, opPrec, g =>
    ∀ tok, tokens[g.pos]? = some tok → exprIsBinaryOp tok.type = true →
      opPrec < exprGetPrecedence tok.type →
      ExprInside tokens tab fuel true (exprGetPrecedence tok.type) g ∧
      ∀ r g', parseExpr1 tokens tab fuel true (exprGetPrecedence tok.type) g = some (r, g') → 0 ≤ r →
        HigherInside tokens tab fuel opPrec g'

end

def Halts (e p n : Nat) (call : Option (Int × Gen)) : Prop :=
  ∃ r g, call = some (r, g) ∧ p ≤ g.pos ∧ g.pos ≤ e ∧ (0 ≤ r → p + n ≤ g.pos)

section Halts

variable {tokens : List Token} {tab : Symtab} {e p p' n n' : Nat} {g : Gen} {r : Int}
  {x : Option (Int × Gen)} {f : Gen → Option (Int × Gen)}

theorem Halts.result (hlow : p + n ≤ g.pos) (hhigh : g.pos ≤ e) : Halts e p n (some (r, g)) :=
  ⟨r, g, rfl, by omega, hhigh, fun _ => hlow⟩

theorem Halts.fail (hlow : p ≤ g.pos) (hhigh : g.pos ≤ e) : Halts e p n (some (-1, g)) :=
  ⟨-1, g, rfl, hlow, hhigh, fun h => absurd h (by decide)⟩

theorem Halts.weaken (h : Halts e p' n' x) (hp : p ≤ p') (hn : p + n ≤ p' + n') : Halts e p n x := by
  obtain ⟨r, g, hx, hlow, hhigh, hmoved⟩ := h
  exact ⟨r, g, hx, by omega, hhigh, fun hr => by have := hmoved hr; omega⟩

theorem Halts.orFail (hx : Halts e p n' x)
    (hf : ∀ r g, x = some (r, g) → 0 ≤ r → p + n' ≤ g.pos → g.pos ≤ e → Halts e p n (f g)) :
    Halts e p n (orFail x f) := by
  obtain ⟨r, g, rfl, hlow, hhigh, hmoved⟩ := hx
  unfold Tcc.orFail
  rw [some_bind]
  by_cases hr : r < 0
  · simp only [if_pos hr]
    exact .fail hlow hhigh
  · simp only [if_neg hr]
    exact hf r g rfl (by omega) (hmoved (by omega)) hhigh

theorem Halts.keepPos {i : Nat} (hx : Halts e p n' x) (hi : i ≤ e) : Halts e i 0 (keepPos i x) := by
  obtain ⟨r, g, rfl, -, -, -⟩ := hx
  exact .result le_rfl hi

variable {name : CString}

theorem registerExternalSymbol_enterable (h : Enterable g name) :
    ∃ idx g', registerExternalSymbol g name = some (idx, g') ∧ g'.pos = g.pos := by
  unfold registerExternalSymbol
  split
  · exact ⟨0, g, rfl, rfl⟩
  · next hroom =>
    cases hfind : g.funcTable.findIdx? fun f => decide (f.name = name) with
    | some i => exact ⟨i + 1, g, rfl, rfl⟩
    | none =>
      rcases h with hfull | ⟨entry, hmem, hname⟩ | hshort
      · exact absurd hfull hroom
      · have hmiss := findIdx?_eq_none_iff.mp hfind entry hmem
        exact absurd hname (of_decide_eq_false hmiss)
      · unfold strncpy
        rw [if_pos (Nat.lt_succ_of_le hshort)]
        exact ⟨_, _, rfl, rfl⟩

theorem emitCall_enterable {funcPos : Nat} (argSizes : Nat) (h : funcPos = 0 → Enterable g name) :
    ∃ g', emitCall g name funcPos argSizes = some (0, g') ∧ g'.pos = g.pos := by
  have hclean : ∀ (g₁ : Gen) bytes, (if argSizes > 0 then g₁.emit bytes else g₁).pos = g₁.pos := by
    intro g₁ bytes
    split <;> rfl
  unfold emitCall
  dsimp only
  by_cases hzero : funcPos = 0
  · obtain ⟨idx, g₁, hregister, hpos⟩ :=
      registerExternalSymbol_enterable (g := g.emit (0xE8 :: X86.wordBytes 0)) (h hzero)
    rw [if_pos hzero, hregister]
    refine ⟨_, rfl, (hclean _ _).trans ?_⟩
    unfold addRelocation
    split <;> exact hpos
  · rw [if_neg hzero]
    exact ⟨_, rfl, hclean _ _⟩

theorem applyBinary_pos (op : TokenType) (g : Gen) : (applyBinary op g).2.pos = g.pos := by
  unfold applyBinary
  cases op
  case tokPlus =>
    dsimp only
    split
    · split <;> rfl
    · rfl
  all_goals rfl

theorem halts_parseVariable (hend : EndsAt tokens e) (hpos : g.pos < e) :
    Halts e g.pos 1 (parseVariable tokens tab name g) := by
  unfold parseVariable
  cases symtabLookup tab name with
  | none => exact .fail le_rfl hpos.le
  | some sym =>
    obtain ⟨next, hnext, hlt⟩ := hend.read (p := g.pos + 1) hpos
    have hread : tokens[g.pos + 1]? = some next := hnext
    dsimp only
    change Halts e g.pos 1 ((tokens[g.pos + 1]?).bind _)
    rw [hread, bind_some]
    cases htype : next.type
    case tokPlusplus | tokMinusminus =>
      have hlt := hlt (by rw [htype]; decide)
      exact .result (Nat.le_succ _) hlt
    all_goals exact .result le_rfl hpos

theorem halts_parsePrefixed (hend : EndsAt tokens e) {emit : Symbol → List X86.Byte} (hpos : g.pos ≤ e) :
    Halts e g.pos 1 (parsePrefixed tokens tab emit g) := by
  obtain ⟨tok, htok, hlt⟩ := hend.read hpos
  unfold parsePrefixed
  rw [htok, some_bind]
  by_cases hident : tok.type ≠ .tokIdent
  · rw [if_pos hident]
    exact .fail le_rfl hpos
  · rw [if_neg hident]
    cases symtabLookup tab tok.str with
    | none => exact .fail le_rfl hpos
    | some sym =>
      have hlt := hlt (by rw [not_not.mp hident]; decide)
      exact .result le_rfl hlt

end Halts

section Parser

variable {tokens : List Token} {tab : Symtab} {e fuel : Nat} {g : Gen}

variable (tokens tab e fuel) in
/-- The five functions come back, with fuel for each token that is left: as many units as a call may have
arguments, and some. -/
structure Halting : Prop where
  primary : ∀ g, g.pos ≤ e → 40 * (e + 1 - g.pos) ≤ fuel → PrimaryInside tokens tab fuel g →
    Halts e g.pos 1 (parsePrimary tokens tab fuel g)
  args : ∀ lo args g, g.pos ≤ e → lo ≤ e → (∀ a ∈ args, lo ≤ a ∧ a ≤ e) →
    40 * (e + 1 - lo) + 2 + args.length ≤ fuel → ArgsInside tokens tab fuel args g →
    Halts e g.pos 0 (pushArgs tokens tab fuel args g)
  expr : ∀ prec g, g.pos ≤ e → 40 * (e + 1 - g.pos) + 1 ≤ fuel →
    ExprInside tokens tab fuel false prec g → Halts e g.pos 1 (parseExpr1 tokens tab fuel false prec g)
  climb : ∀ prec g, g.pos ≤ e → 40 * (e + 1 - g.pos) ≤ fuel → ClimbInside tokens tab fuel prec g →
    Halts e g.pos 0 (Tcc.climb tokens tab fuel prec g)
  climbed : ∀ prec g tok, tokens[g.pos]? = some tok → exprIsBinaryOp tok.type = true →
    prec ≤ exprGetPrecedence tok.type → 40 * (e + 1 - g.pos) ≤ fuel →
    ClimbInside tokens tab fuel prec g → Halts e g.pos 1 (Tcc.climb tokens tab fuel prec g)
  higher : ∀ prec g, g.pos ≤ e → 40 * (e + 1 - g.pos) + 2 ≤ fuel →
    HigherInside tokens tab fuel prec g → Halts e g.pos 0 (climbHigher tokens tab fuel prec g)

variable (hend : EndsAt tokens e)

include hend

theorem Halting.primary_succ (h : Halting tokens tab e fuel) (hpos : g.pos ≤ e)
    (hfuel : 40 * (e + 1 - g.pos) ≤ fuel + 1) (hin : PrimaryInside tokens tab (fuel + 1) g) :
    Halts e g.pos 1 (parsePrimary tokens tab (fuel + 1) g) := by
  obtain ⟨tok, htok, hnext⟩ := hend.read hpos
  rw [PrimaryInside, htok] at hin
  rw [parsePrimary, htok, some_bind]
  dsimp only at hin
  have hskip : ∀ n, (g.skip n).pos = g.pos + n := fun _ => rfl
  -- an operator in front of a primary
  have hunary : tok.type ≠ .tokEof → PrimaryInside tokens tab fuel (g.skip 1) → ∀ bytes,
      Halts e g.pos 1 (orFail (parsePrimary tokens tab fuel (g.skip 1)) fun g => some (0, g.emit bytes)) := by
    intro heof hin bytes
    have hlt := hnext heof
    have hcall := h.primary (g.skip 1) hlt (by rw [hskip]; omega) hin
    refine Halts.orFail (hcall.weaken (by rw [hskip]; omega) (n := 2) (by have := hskip 1; omega)) ?_
    intro r g' _ _ hlow hhigh
    exact .result (show g.pos + 1 ≤ g'.pos by omega) hhigh
  cases htype : tok.type
  case tokNumber =>
    have hlt := hnext (by rw [htype]; decide)
    exact .result le_rfl hlt
  case tokIdent =>
    rw [htype] at hin
    have hlt := hnext (by rw [htype]; decide)
    obtain ⟨next, hread, hbehind⟩ := hend.read (p := g.pos + 1) hlt
    have hntype := typeAt_eq hread
    dsimp only at hin ⊢
    rw [hntype] at hin
    rw [hread, some_bind]
    cases hkind : next.type
    case tokLparen =>
      rw [hkind] at hin
      dsimp only at hin ⊢
      have hopen := hbehind (by rw [hkind]; decide)
      obtain ⟨hclosed, hargs⟩ := hin
      obtain ⟨result, behind, hscan, hscanned⟩ := hclosed.scanArgs hend (show g.pos + 2 ≤ e from hopen)
      rw [hscan, some_bind]
      cases result with
      | none => exact .fail (show g.pos ≤ behind by have := hscanned.low; omega) hscanned.high
      | some args =>
        obtain ⟨hcount, hplaces⟩ := hscanned.args args rfl
        obtain ⟨hin, henters⟩ := hargs args behind hscan
        have hlow := hscanned.low
        have hmax : maxFuncArgs = 32 := rfl
        have hpush := h.args (g.pos + 2) args.reverse { g with pos := behind } hscanned.high hopen
          (fun a ha => hplaces a (mem_reverse.mp ha))
          (by rw [length_reverse]; omega) hin
        refine Halts.orFail (hpush.weaken (show g.pos ≤ behind by omega) (n := 1)
          (show g.pos + 1 ≤ behind + 0 by omega)) ?_
        intro r g' hcall hr hlow' hhigh
        obtain ⟨close, hclose, hclosing⟩ := hend.read hhigh
        rw [hclose, some_bind]
        by_cases hrparen : close.type = .tokRparen
        · rw [if_pos hrparen]
          obtain ⟨g₁, hemit, hpos₁⟩ :=
            emitCall_enterable (g := g'.skip 1) (4 * args.length) (henters r g' hcall hr)
          rw [hemit]
          have hlast := hclosing (by rw [hrparen]; decide)
          exact .result (by rw [hpos₁]; exact Nat.le_succ_of_le hlow') (by rw [hpos₁]; exact hlast)
        · rw [if_neg hrparen]
          obtain ⟨g₁, hemit, hpos₁⟩ := emitCall_enterable (4 * args.length) (henters r g' hcall hr)
          rw [hemit]
          exact .result (by rw [hpos₁]; exact hlow') (by rw [hpos₁]; exact hhigh)
    case tokLbracket =>
      rw [hkind] at hin
      dsimp only at hin ⊢
      have hopen := hbehind (by rw [hkind]; decide)
      cases hsym : symtabLookup tab tok.str with
      | none => exact .fail le_rfl hpos
      | some sym =>
        dsimp only
        by_cases hsize : sym.arraySize ≤ 0
        · rw [if_pos hsize]
          exact .fail le_rfl hpos
        · rw [if_neg hsize]
          have hexpr := h.expr precNone (g.skip 2) hopen (by rw [hskip]; omega) (hin sym hsym (by omega))
          refine Halts.orFail (hexpr.weaken (by rw [hskip]; omega) (n := 3) (by have := hskip 2; omega)) ?_
          intro r g' _ _ hlow hhigh
          obtain ⟨close, hclose, hclosing⟩ := hend.read hhigh
          rw [hclose, some_bind]
          by_cases hrbracket : close.type = .tokRbracket
          · rw [if_pos hrbracket]
            have hlast := hclosing (by rw [hrbracket]; decide)
            exact .result (show g.pos + 1 ≤ g'.pos + 1 by omega) hlast
          · rw [if_neg hrbracket]
            exact .result (show g.pos + 1 ≤ g'.pos by omega) hhigh
    all_goals exact halts_parseVariable hend hlt
  case tokLparen =>
    rw [htype] at hin
    have hlt := hnext (by rw [htype]; decide)
    have hexpr := h.expr precNone (g.skip 1) hlt (by rw [hskip]; omega) hin
    refine Halts.orFail (hexpr.weaken (by rw [hskip]; omega) (n := 2) (by have := hskip 1; omega)) ?_
    intro r g' _ _ hlow hhigh
    obtain ⟨close, hclose, hclosing⟩ := hend.read hhigh
    rw [hclose, some_bind]
    by_cases hrparen : close.type = .tokRparen
    · rw [if_pos hrparen]
      have hlast := hclosing (by rw [hrparen]; decide)
      exact .result (show g.pos + 1 ≤ g'.pos + 1 by omega) hlast
    · rw [if_neg hrparen]
      exact .fail (by omega) hhigh
  case tokAnd | tokPlusplus | tokMinusminus =>
    have hlt := hnext (by rw [htype]; decide)
    exact (halts_parsePrefixed hend (g := g.skip 1) hlt).weaken (by rw [hskip]; omega) (by rw [hskip]; omega)
  case tokStar | tokPlus | tokMinus | tokLognot | tokNot =>
    rw [htype] at hin
    exact hunary (by rw [htype]; decide) hin _
  all_goals exact .fail le_rfl hpos

variable {prec : Nat}

theorem Halting.climbed_succ (h : Halting tokens tab e fuel) {tok : Token}
    (htok : tokens[g.pos]? = some tok) (hbinary : exprIsBinaryOp tok.type = true)
    (hprec : prec ≤ exprGetPrecedence tok.type) (hfuel : 40 * (e + 1 - g.pos) ≤ fuel + 1)
    (hin : ClimbInside tokens tab (fuel + 1) prec g) :
    Halts e g.pos 1 (Tcc.climb tokens tab (fuel + 1) prec g) := by
  have hpos := hend.le_of_read htok
  have hlt : g.pos < e := hend.lt_of_read htok (by rintro heof; rw [heof] at hbinary; cases hbinary)
  rw [ClimbInside] at hin
  obtain ⟨hprimary, hin⟩ := hin tok htok hbinary hprec
  rw [Tcc.climb, htok, some_bind, if_neg (by rw [hbinary]; decide), if_neg (Nat.not_lt_of_le hprec)]
  dsimp only at hprimary hin ⊢
  have hoperand := h.primary _ (show g.pos + 1 ≤ e from hlt)
    (show 40 * (e + 1 - (g.pos + 1)) ≤ fuel by omega) hprimary
  refine Halts.orFail (hoperand.weaken (show g.pos ≤ g.pos + 1 by omega) (n := 2) le_rfl) ?_
  intro r g₁ hcall₁ hr₁ hlow₁ hhigh₁
  obtain ⟨hhigher, hin⟩ := hin r g₁ hcall₁ hr₁
  have htighter := h.higher _ g₁ hhigh₁ (by omega) hhigher
  refine Halts.orFail (htighter.weaken (by omega) (n := 2) hlow₁) ?_
  intro r g₂ hcall₂ hr₂ hlow₂ hhigh₂
  have hin := hin r g₂ hcall₂ hr₂
  have happly : (applyBinary tok.type (g₂.emit emitPopEbx)).2.pos = g₂.pos := applyBinary_pos _ _
  by_cases hfail : (applyBinary tok.type (g₂.emit emitPopEbx)).1 < 0
  · rw [if_pos hfail]
    exact .fail (by rw [happly]; omega) (by rw [happly]; exact hhigh₂)
  · rw [if_neg hfail]
    have hrest := h.climb prec _ (by rw [happly]; exact hhigh₂) (by rw [happly]; omega)
      (hin (Int.not_lt.mp hfail))
    exact hrest.weaken (by rw [happly]; omega) (by rw [happly]; omega)

theorem Halting.climb_succ (h : Halting tokens tab e fuel) (hpos : g.pos ≤ e)
    (hfuel : 40 * (e + 1 - g.pos) ≤ fuel + 1) (hin : ClimbInside tokens tab (fuel + 1) prec g) :
    Halts e g.pos 0 (Tcc.climb tokens tab (fuel + 1) prec g) := by
  obtain ⟨tok, htok, -⟩ := hend.read hpos
  by_cases hbinary : exprIsBinaryOp tok.type = true
  · by_cases hprec : prec ≤ exprGetPrecedence tok.type
    · exact (h.climbed_succ hend htok hbinary hprec hfuel hin).weaken le_rfl (Nat.le_succ _)
    · rw [Tcc.climb, htok, some_bind, if_neg (by rw [hbinary]; decide), if_pos (Nat.lt_of_not_le hprec)]
      exact .result le_rfl hpos
  · rw [Tcc.climb, htok, some_bind, if_pos (by rw [Bool.eq_false_iff.mpr hbinary]; rfl)]
    exact .result le_rfl hpos

theorem Halting.higher_succ (h : Halting tokens tab e fuel) (hexpr : ∀ prec g tok,
      tokens[g.pos]? = some tok → exprIsBinaryOp tok.type = true → prec ≤ exprGetPrecedence tok.type →
      40 * (e + 1 - g.pos) + 1 ≤ fuel → ExprInside tokens tab fuel true prec g →
      Halts e g.pos 1 (parseExpr1 tokens tab fuel true prec g))
    (hpos : g.pos ≤ e) (hfuel : 40 * (e + 1 - g.pos) + 2 ≤ fuel + 1)
    (hin : HigherInside tokens tab (fuel + 1) prec g) :
    Halts e g.pos 0 (climbHigher tokens tab (fuel + 1) prec g) := by
  obtain ⟨tok, htok, -⟩ := hend.read hpos
  rw [climbHigher, htok, some_bind]
  by_cases htight : exprIsBinaryOp tok.type = true ∧ exprGetPrecedence tok.type > prec
  · rw [if_pos htight]
    rw [HigherInside] at hin
    obtain ⟨hinside, hin⟩ := hin tok htok htight.1 htight.2
    have hcall := hexpr _ g tok htok htight.1 le_rfl (by omega) hinside
    refine Halts.orFail hcall ?_
    intro r g' hresult hr hlow hhigh
    exact (h.higher prec g' hhigh (by omega) (hin r g' hresult hr)).weaken (by omega) (by omega)
  · rw [if_neg htight]
    exact .result le_rfl hpos

omit hend in
theorem Halting.args_succ (h : Halting tokens tab e fuel) {lo : Nat} {args : List Nat} (hpos : g.pos ≤ e)
    (hlo : lo ≤ e) (hargs : ∀ a ∈ args, lo ≤ a ∧ a ≤ e)
    (hfuel : 40 * (e + 1 - lo) + 2 + args.length ≤ fuel + 1)
    (hin : ArgsInside tokens tab (fuel + 1) args g) :
    Halts e g.pos 0 (pushArgs tokens tab (fuel + 1) args g) := by
  cases args with
  | nil =>
    rw [pushArgs]
    exact .result le_rfl hpos
  | cons arg args =>
    rw [ArgsInside] at hin
    obtain ⟨hexpr, hin⟩ := hin
    obtain ⟨hlow, hhigh⟩ := hargs arg mem_cons_self
    rw [length_cons] at hfuel
    rw [pushArgs]
    have hcall := h.expr precNone { g with pos := arg } hhigh
      (show 40 * (e + 1 - arg) + 1 ≤ fuel by omega) hexpr
    refine Halts.orFail (hcall.keepPos hpos) ?_
    intro r g' hresult hr _ hhigh'
    have hkept : g'.pos = g.pos := by
      obtain ⟨r₁, g₁, hcall, -⟩ := hcall
      rw [hcall] at hresult
      cases hresult
      rfl
    have hrest := h.args lo args (g'.emit emitPushEax) hhigh' hlo
      (fun a ha => hargs a (mem_cons_of_mem _ ha)) (by omega) (hin r g' hresult hr)
    exact hrest.weaken (hkept.symm.le) (hkept.symm.le)

theorem halting (fuel : Nat) : Halting tokens tab e fuel ∧
    ∀ prec g tok, tokens[g.pos]? = some tok → exprIsBinaryOp tok.type = true →
      prec ≤ exprGetPrecedence tok.type → 40 * (e + 1 - g.pos) + 1 ≤ fuel →
      ExprInside tokens tab fuel true prec g → Halts e g.pos 1 (parseExpr1 tokens tab fuel true prec g) := by
  induction fuel with
  | zero =>
    refine ⟨?_, fun _ _ _ _ _ _ hfuel => absurd hfuel (by omega)⟩
    exact
      { primary := fun _ hpos hfuel => by omega
        args := fun _ _ _ _ _ _ hfuel => by omega
        expr := fun _ _ _ hfuel => by omega
        climb := fun _ _ hpos hfuel => by omega
        climbed := fun _ _ _ htok _ _ hfuel => by
          have hpos := hend.le_of_read htok
          omega
        higher := fun _ _ _ hfuel => by omega }
  | succ fuel ih =>
    obtain ⟨ih, hexpr⟩ := ih
    refine
      ⟨{ primary := fun _ => ih.primary_succ hend
         args := fun _ _ _ => ih.args_succ
         expr := ?_
         climb := fun _ _ => ih.climb_succ hend
         climbed := fun _ _ _ => ih.climbed_succ hend
         higher := fun _ _ => ih.higher_succ hend hexpr }, ?_⟩
    · intro prec g hpos hfuel hin
      rw [ExprInside, if_neg Bool.false_ne_true] at hin
      rw [parseExpr1, if_neg Bool.false_ne_true]
      refine Halts.orFail (ih.primary g hpos (by omega) hin.1) ?_
      intro r g' hcall hr hlow hhigh
      exact (ih.climb prec g' hhigh (by omega) (hin.2 r g' hcall hr)).weaken (by omega) (by omega)
    · intro prec g tok htok hbinary hprec hfuel hin
      rw [ExprInside, if_pos rfl] at hin
      rw [parseExpr1, if_pos rfl]
      exact ih.climbed prec g tok htok hbinary hprec (by omega) hin

theorem exprParse_halts (hpos : g.pos ≤ e) (hfuel : 40 * (e + 1 - g.pos) + 1 ≤ fuel)
    (hin : ExprInside tokens tab fuel false precNone g) : Halts e g.pos 1 (exprParse tokens tab fuel g) :=
  (halting hend fuel).1.expr precNone g hpos hfuel hin

end Parser

end JexOs.Tcc
