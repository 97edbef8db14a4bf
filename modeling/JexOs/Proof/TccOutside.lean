import JexOs.Proof.TccInside
import JexOs.Proof.TccFlow
import JexOs.Proof.TccLayout

/-!
# A compiler that comes back has stayed inside

What is read behind the end of the array has no result, so a parser that comes back has met no argument that is
not closed.
-/

namespace JexOs.Tcc

open X86 (Byte)
open List Option

section Scan

variable {tokens : List Token} {p q stop : Nat}

theorem scanArg_closes {fuel depth : Nat} (h : scanArg tokens fuel depth p = some stop) :
    p ≤ stop ∧ (typeAt tokens stop = some .tokRparen ∨ typeAt tokens stop = some .tokComma) ∧
      depth + countTokens tokens .tokLparen p stop ≤ countTokens tokens .tokRparen p stop := by
  induction fuel generalizing p depth with
  | zero => cases h
  | succ fuel ih =>
    cases htok : tokens[p]? with
    | none =>
      rw [scanArg, htok] at h
      cases h
    | some tok =>
      have htype := typeAt_eq htok
      rw [scanArg_succ htok] at h
      by_cases hclose : tok.type = .tokRparen ∧ depth = 0
      · rw [if_pos hclose] at h
        obtain rfl := some.inj h
        refine ⟨Nat.le_refl p, .inl (by rw [htype, hclose.1]), ?_⟩
        rw [countTokens_self, countTokens_self, hclose.2]
      · rw [if_neg hclose] at h
        by_cases hcomma : tok.type = .tokComma ∧ depthBehind tok.type depth = 0
        · rw [if_pos hcomma] at h
          obtain rfl := some.inj h
          refine ⟨Nat.le_refl p, .inr (by rw [htype, hcomma.1]), ?_⟩
          have hdepth : depth = 0 := by
            have hbehind := hcomma.2
            rw [hcomma.1] at hbehind
            exact hbehind
          rw [countTokens_self, countTokens_self, hdepth]
        · rw [if_neg hcomma] at h
          obtain ⟨hle, htypes, hcount⟩ := ih h
          have hopen : countTokens tokens .tokLparen p stop = _ := countTokens_cons htok hle
          have hshut : countTokens tokens .tokRparen p stop = _ := countTokens_cons htok hle
          have hbehind := depthBehind_add hclose
          exact ⟨by omega, htypes, by omega⟩

theorem closed_of_scanArg (h : scanArg tokens (tokens.length + 1) 0 p = some stop) : Closed tokens p := by
  obtain ⟨hle, htypes, hcount⟩ := scanArg_closes h
  exact ⟨stop, hle, htypes, by omega⟩

theorem ArgAt.unique {k q' : Nat} (h : ArgAt tokens p k q) (h' : ArgAt tokens p k q') : q = q' := by
  induction h generalizing q' with
  | first =>
    cases h'
    rfl
  | next h hopen hread hstop hcomma ih =>
    cases h' with
    | next h' hopen' hread' hstop' hcomma' =>
      obtain rfl := ih h'
      rw [hstop] at hstop'
      cases hstop'
      rfl
    | last h' hopen' hread' hstop' hrparen' =>
      obtain rfl := ih h'
      rw [hstop] at hstop'
      cases hstop'
      rw [hcomma] at hrparen'
      cases hrparen'
  | last h hopen hread hstop hrparen ih =>
    cases h' with
    | next h' hopen' hread' hstop' hcomma' =>
      obtain rfl := ih h'
      rw [hstop] at hstop'
      cases hstop'
      rw [hrparen] at hcomma'
      cases hcomma'
    | last h' hopen' hread' hstop' hrparen' =>
      obtain rfl := ih h'
      rw [hstop] at hstop'
      cases hstop'
      rfl

theorem ArgAt.before {k k' : Nat} (h : ArgAt tokens p k' q) (hlt : k < k') :
    ∃ q', ArgAt tokens p k q' ∧ typeAt tokens q' ≠ some .tokRparen ∧ typeAt tokens q' ≠ some .tokEof ∧
      ∃ stop, scanArg tokens (tokens.length + 1) 0 q' = some stop := by
  induction h with
  | first => exact absurd hlt (Nat.not_lt_zero k)
  | @next k' q stop h hopen hread hstop hcomma ih =>
    by_cases hlast : k = k'
    · exact ⟨q, hlast ▸ h, hopen, hread, stop, hstop⟩
    · exact ih (by omega)
  | @last k' q stop h hopen hread hstop hrparen ih =>
    by_cases hlast : k = k'
    · exact ⟨q, hlast ▸ h, hopen, hread, stop, hstop⟩
    · exact ih (by omega)

theorem argsClosed_of_scanArgs {fuel : Nat} {args : List Nat} {result : Option (List Nat) × Nat}
    (hat : ArgAt tokens p args.length q) (h : scanArgs tokens fuel args q = some result) :
    ArgsClosed tokens p := by
  induction fuel generalizing args q with
  | zero => cases h
  | succ fuel ih =>
    obtain ⟨tok, htok, h⟩ := bind_eq_some_iff.mp h
    have htype := typeAt_eq htok
    -- an argument in front of this one was scanned
    have hbefore : ∀ k q', ArgAt tokens p k q' → k < args.length → Closed tokens q' := by
      intro k q' hat' hlt
      obtain ⟨q'', hat'', -, -, stop, hstop⟩ := hat.before hlt
      rw [hat'.unique hat'']
      exact closed_of_scanArg hstop
    by_cases hdone : tok.type = .tokRparen ∨ tok.type = .tokEof
    · have hlast : ¬ (typeAt tokens q ≠ some .tokRparen ∧ typeAt tokens q ≠ some .tokEof) := by
        rintro ⟨hopen, hread⟩
        rcases hdone with hdone | hdone
        · exact hopen (htype.trans (congrArg some hdone))
        · exact hread (htype.trans (congrArg some hdone))
      intro k q' hat' _ hopen hread
      rcases lt_trichotomy k args.length with hlt | rfl | hgt
      · exact hbefore k q' hat' hlt
      · rw [hat'.unique hat] at hopen hread
        exact absurd ⟨hopen, hread⟩ hlast
      · obtain ⟨q'', hat'', hopen', hread', -⟩ := hat'.before hgt
        rw [hat''.unique hat] at hopen' hread'
        exact absurd ⟨hopen', hread'⟩ hlast
    · rw [if_neg hdone] at h
      by_cases hmany : args.length ≥ maxFuncArgs
      · intro k q' hat' hk _ _
        exact hbefore k q' hat' (hk.trans_le hmany)
      · rw [if_neg hmany] at h
        obtain ⟨stop, hstop, h⟩ := bind_eq_some_iff.mp h
        obtain ⟨last, hlast, h⟩ := bind_eq_some_iff.mp h
        obtain ⟨hrparen, heof⟩ := not_or.mp hdone
        have hopen : typeAt tokens q ≠ some .tokRparen := fun hq =>
          hrparen (some.inj (htype.symm.trans hq))
        have hread : typeAt tokens q ≠ some .tokEof := fun hq =>
          heof (some.inj (htype.symm.trans hq))
        have hlength : (args ++ [q]).length = args.length + 1 := length_append
        obtain ⟨-, htypes, -⟩ := scanArg_closes hstop
        have hltype := typeAt_eq hlast
        refine ih ?_ h
        rw [hlength]
        by_cases hcomma : last.type = .tokComma
        · rw [if_pos hcomma]
          exact hat.next hopen hread hstop (hltype.trans (congrArg some hcomma))
        · rw [if_neg hcomma]
          refine hat.last hopen hread hstop (htypes.resolve_right fun h => hcomma ?_)
          exact some.inj (hltype.symm.trans h)

end Scan

section Parser

variable {tokens : List Token} {tab : Symtab} {fuel : Nat} {g : Gen} {x : Int × Gen}

variable {f : Gen → Option (Int × Gen)} {call : Option (Int × Gen)} {prec : Nat}

theorem orFail_some (h : orFail call f = some x) : ∃ r g, call = some (r, g) ∧ (0 ≤ r → f g = some x) := by
  obtain ⟨⟨r, g⟩, hcall, h⟩ := bind_eq_some_iff.mp h
  refine ⟨r, g, hcall, fun hr => ?_⟩
  dsimp only at h
  rw [if_neg (Int.not_lt.mpr hr)] at h
  exact h

theorem orFail_next
    (h : orFail call f = some x) {r : Int} (hcall : call = some (r, g)) (hr : 0 ≤ r) : f g = some x := by
  obtain ⟨r', g', hcall', hnext⟩ := orFail_some h
  rw [hcall] at hcall'
  cases hcall'
  exact hnext hr

theorem enterable_of_register {name : CString} {i : Nat} {g' : Gen}
    (h : registerExternalSymbol g name = some (i, g')) : Enterable g name := by
  unfold registerExternalSymbol at h
  by_cases hfull : g.funcTable.length ≥ maxFuncs
  · exact .inl hfull
  · rw [if_neg hfull] at h
    cases hfind : g.funcTable.findIdx? fun f => decide (f.name = name) with
    | some i =>
      obtain ⟨hi, hname, -⟩ := findIdx?_eq_some_iff_getElem.mp hfind
      exact .inr (.inl ⟨_, getElem_mem hi, of_decide_eq_true hname⟩)
    | none =>
      rw [hfind] at h
      obtain ⟨stored, hstored, -⟩ := bind_eq_some_iff.mp h
      unfold strncpy at hstored
      split at hstored
      · next hshort => exact .inr (.inr (Nat.le_of_lt_succ hshort))
      · cases hstored

theorem enterable_of_emitCall {name : CString} {argSizes : Nat} (h : emitCall g name 0 argSizes = some x) :
    Enterable g name := by
  unfold emitCall at h
  obtain ⟨⟨i, g'⟩, hregister, -⟩ := bind_eq_some_iff.mp h
  have henter : Enterable (g.emit (0xE8 :: X86.wordBytes 0)) name := enterable_of_register hregister
  exact henter

variable (tokens tab fuel) in
structure Inside : Prop where
  primary : ∀ g x, parsePrimary tokens tab fuel g = some x → PrimaryInside tokens tab fuel g
  args : ∀ args g x, pushArgs tokens tab fuel args g = some x → ArgsInside tokens tab fuel args g
  expr : ∀ lhs prec g x, parseExpr1 tokens tab fuel lhs prec g = some x →
    ExprInside tokens tab fuel lhs prec g
  climb : ∀ prec g x, Tcc.climb tokens tab fuel prec g = some x → ClimbInside tokens tab fuel prec g
  higher : ∀ prec g x, climbHigher tokens tab fuel prec g = some x →
    HigherInside tokens tab fuel prec g

section

variable (h : Inside tokens tab fuel)

include h

theorem Inside.primary_succ
    (hcall : parsePrimary tokens tab (fuel + 1) g = some x) : PrimaryInside tokens tab (fuel + 1) g := by
  obtain ⟨tok, htok, hcall⟩ := bind_eq_some_iff.mp hcall
  rw [PrimaryInside, htok]
  dsimp only
  cases htype : tok.type
  case tokIdent =>
    rw [htype] at hcall
    obtain ⟨next, hnext, hcall⟩ := bind_eq_some_iff.mp hcall
    rw [typeAt_eq hnext]
    cases hkind : next.type
    case tokLparen =>
      rw [hkind] at hcall
      obtain ⟨⟨args, behind⟩, hscan, hcall⟩ := bind_eq_some_iff.mp hcall
      refine ⟨argsClosed_of_scanArgs .first hscan, fun args' behind' hscan' => ?_⟩
      rw [hscan] at hscan'
      cases hscan'
      obtain ⟨r, g₁, hpush, -⟩ := orFail_some hcall
      refine ⟨h.args _ _ _ hpush, fun r' g' hpush' hr' hzero => ?_⟩
      have hbehind := orFail_next hcall hpush' hr'
      obtain ⟨close, -, hemit⟩ := bind_eq_some_iff.mp hbehind
      rw [hzero] at hemit
      have henter := enterable_of_emitCall hemit
      split at henter
      · exact henter
      · exact henter
    case tokLbracket =>
      rw [hkind] at hcall
      intro sym hsym hsize
      rw [hsym] at hcall
      dsimp only at hcall
      rw [if_neg (Int.not_le.mpr hsize)] at hcall
      obtain ⟨r, g₁, hexpr, -⟩ := orFail_some hcall
      exact h.expr _ _ _ _ hexpr
    all_goals trivial
  case tokLparen =>
    rw [htype] at hcall
    obtain ⟨r, g₁, hexpr, -⟩ := orFail_some hcall
    exact h.expr _ _ _ _ hexpr
  case tokStar | tokPlus | tokMinus | tokLognot | tokNot =>
    rw [htype] at hcall
    obtain ⟨r, g₁, hprimary, -⟩ := orFail_some hcall
    exact h.primary _ _ hprimary
  all_goals trivial

theorem Inside.climb_succ (hcall : Tcc.climb tokens tab (fuel + 1) prec g = some x) : ClimbInside tokens tab
    (fuel + 1) prec g := by
  intro tok htok hbinary hprec
  rw [Tcc.climb, htok, some_bind, if_neg (by rw [hbinary]; decide), if_neg (Nat.not_lt_of_le hprec)] at hcall
  dsimp only at hcall ⊢
  obtain ⟨r, g₁, hprimary, -⟩ := orFail_some hcall
  refine ⟨h.primary _ _ hprimary, fun r₁ g₁ hprimary hr₁ => ?_⟩
  have hcall := orFail_next hcall hprimary hr₁
  obtain ⟨r, g₂, hhigher, -⟩ := orFail_some hcall
  refine ⟨h.higher _ _ _ hhigher, fun r₂ g₂ hhigher hr₂ hr => ?_⟩
  have hcall := orFail_next hcall hhigher hr₂
  rw [if_neg (Int.not_lt.mpr hr)] at hcall
  exact h.climb _ _ _ hcall

theorem Inside.higher_succ (hcall : climbHigher tokens tab (fuel + 1) prec g = some x) :
    HigherInside tokens tab (fuel + 1) prec g := by
  intro tok htok hbinary hprec
  rw [climbHigher, htok, some_bind, if_pos ⟨hbinary, hprec⟩] at hcall
  obtain ⟨r, g₁, hexpr, -⟩ := orFail_some hcall
  refine ⟨h.expr _ _ _ _ hexpr, fun r₁ g₁ hexpr hr₁ => ?_⟩
  exact h.higher _ _ _ (orFail_next hcall hexpr hr₁)

theorem Inside.args_succ {args : List Nat}
    (hcall : pushArgs tokens tab (fuel + 1) args g = some x) : ArgsInside tokens tab (fuel + 1) args g := by
  cases args with
  | nil =>
    trivial
  | cons arg args =>
    obtain ⟨r, g₁, hkept, -⟩ := orFail_some hcall
    obtain ⟨⟨r', g'⟩, hexpr, -⟩ := bind_eq_some_iff.mp hkept
    refine ⟨h.expr _ _ _ _ hexpr, fun r₁ g₁ hkept hr₁ => ?_⟩
    have hrest := orFail_next hcall hkept hr₁
    exact h.args _ _ _ hrest

theorem Inside.expr_succ {lhs : Bool} (hcall : parseExpr1 tokens tab (fuel + 1) lhs prec g = some x) :
    ExprInside tokens tab (fuel + 1) lhs prec g := by
  rw [ExprInside]
  rw [parseExpr1] at hcall
  cases lhs with
  | true =>
    exact h.climb _ _ _ hcall
  | false =>
    obtain ⟨r, g₁, hprimary, -⟩ := orFail_some hcall
    refine ⟨h.primary _ _ hprimary, fun r₁ g₁ hprimary hr₁ => ?_⟩
    exact h.climb _ _ _ (orFail_next hcall hprimary hr₁)

end

theorem inside (fuel : Nat) : Inside tokens tab fuel := by
  induction fuel with
  | zero =>
    exact
      { primary := fun _ _ _ => trivial
        args := fun _ _ _ _ => trivial
        expr := fun _ _ _ _ _ => trivial
        climb := fun _ _ _ _ => trivial
        higher := fun _ _ _ _ => trivial }
  | succ fuel ih =>
    exact
      { primary := fun _ _ => ih.primary_succ
        args := fun _ _ _ => ih.args_succ
        expr := fun _ _ _ _ => ih.expr_succ
        climb := fun _ _ _ => ih.climb_succ
        higher := fun _ _ _ => ih.higher_succ }

end Parser

section Turn

variable {tokens : List Token} {tab : Symtab} {e fuel p : Nat} {s s' : Parser} {name : CString}

theorem exprInside_of_parseAt {x : Bool × Nat × Parser} (h : parseAt tokens fuel s p = some x) :
    ExprInside tokens s.symtab fuel false precNone { s.gen with pos := p } := by
  obtain ⟨x, hexpr, -⟩ := bind_eq_some_iff.mp h
  exact (inside fuel).expr _ _ _ _ hexpr

variable {type : SymType} {t tok : Token}

theorem storable_of_declare (h : s.declare name type = some s') : Storable s.symtab name := by
  obtain ⟨⟨r, tab⟩, hadd, -⟩ := bind_eq_some_iff.mp h
  unfold symtabAdd at hadd
  by_cases htwice : (s.symtab.entries.any fun sym => sym.scopeLevel = 1 ∧ sym.name = name) = true
  · obtain ⟨sym, hmem, hsym⟩ := any_eq_true.mp htwice
    exact .inl ⟨sym, hmem, of_decide_eq_true hsym⟩
  · rw [if_neg htwice] at hadd
    cases hfree : findFreeSlot s.symtab with
    | none => exact .inr (.inl hfree)
    | some idx =>
      rw [hfree] at hadd
      obtain ⟨stored, hstored, -⟩ := bind_eq_some_iff.mp hadd
      unfold strncpy at hstored
      split at hstored
      · next hshort => exact .inr (.inr (Nat.le_of_lt_succ hshort))
      · cases hstored

theorem storable_of_lookupOrDeclare {x : Option Symbol × Parser} (h : lookupOrDeclare s name = some x)
    (hnew : symtabLookup s.symtab name = none) : Storable s.symtab name := by
  unfold lookupOrDeclare at h
  rw [hnew] at h
  obtain ⟨s', hdeclare, -⟩ := bind_eq_some_iff.mp h
  exact storable_of_declare hdeclare

theorem from_of_read (h : tokens[p]? = some t) : From tokens p (t :: tokens.drop (p + 1)) := by
  obtain ⟨hp, rfl⟩ := List.getElem?_eq_some_iff.mp h
  refine ⟨tokens.take p, ?_, length_take_of_le hp.le⟩
  rw [← drop_eq_getElem_cons hp, take_append_drop]

theorem drop_of_read (h : tokens[p]? = some t) : tokens.drop p = t :: tokens.drop (p + 1) := by
  obtain ⟨hp, rfl⟩ := List.getElem?_eq_some_iff.mp h
  exact drop_eq_getElem_cons hp

theorem skipIf_le {q : Nat} {type : TokenType} (h : skipIf tokens type p = some q) :
    p ≤ q ∧ ∃ found, typeAt tokens p = some found := by
  obtain ⟨found, hfound, h⟩ := bind_eq_some_iff.mp h
  refine ⟨?_, found, hfound⟩
  obtain rfl := some.inj h
  split
  · exact Nat.le_succ p
  · exact Nat.le_refl p

theorem skipTo_le {q : Nat} {stops : List TokenType} (h : skipTo tokens stops p = some q) : p ≤ q := by
  obtain ⟨k, -, rfl⟩ := map_eq_some_iff.mp h
  exact Nat.le_add_right p k

theorem locateArg_le {n q : Nat} (h : locateArg tokens n p = some q) : p ≤ q := by
  induction n generalizing p with
  | zero => exact Nat.le_of_eq (some.inj h)
  | succ n ih =>
    obtain ⟨k, hk, h⟩ := bind_eq_some_iff.mp h
    obtain ⟨k', hk', h⟩ := bind_eq_some_iff.mp h
    exact (skipTo_le hk).trans (Nat.le_trans (skipIf_le hk').1 (ih h))

theorem formatLoop_reads (hend : EndsAt tokens e) {first : Nat} (format : CString) (argIdx : Nat)
    (text : CString) (s : Parser) :
    ∀ s', formatLoop tokens first format argIdx text s = some s' → takesArg format = true → first ≤ e := by
  -- the token of an argument is in the array
  have hread : ∀ {argIdx : Nat} {f : Token → Option Parser} {s' : Parser}, (do
      let tok ← tokens[← locateArg tokens argIdx first]?
      f tok) = some s' → first ≤ e := by
    intro argIdx f s' h
    obtain ⟨q, hq, h⟩ := bind_eq_some_iff.mp h
    obtain ⟨tok, htok, -⟩ := bind_eq_some_iff.mp h
    exact (locateArg_le hq).trans (hend.le_of_read htok)
  fun_induction formatLoop tokens first format argIdx text s with
  | case1 => exact fun _ _ htakes => absurd htakes Bool.false_ne_true
  | case2 => exact fun _ _ htakes => absurd htakes Bool.false_ne_true
  | case3 rest argIdx text s literal ih =>
    intro s' h htakes
    exact ih s' h htakes
  | case4 => exact fun _ h _ => hread h
  | case5 => exact fun _ h _ => hread h
  | case6 spec rest argIdx text s literal hpct hcall hs ih =>
    intro s' h htakes
    rw [takesArg, if_pos rfl, if_neg hpct, hcall, if_neg (by simpa using hs)] at htakes
    exact ih s' h htakes
  | case7 c spec rest argIdx text s hpercent ih =>
    intro s' h htakes
    rw [takesArg, if_neg hpercent] at htakes
    exact ih s' h htakes

theorem declareLoop_at {i k j : Nat} {s₀ s₁ : Parser}
    (h : declareLoop tokens type k (i + 1) s₀ = some s₁) (hat : DeclaresAt tokens type i s₀ j s) :
    ∃ k s₂, declareLoop tokens type k j s = some s₂ := by
  induction hat with
  | first => exact ⟨k, s₁, h⟩
  | name hat htok hident hname hnext ih =>
    obtain ⟨k, s₂, hloop⟩ := ih
    cases k with
    | zero => cases hloop
    | succ k =>
      unfold declareLoop at hloop
      rw [htok, some_bind, if_neg (by rw [hident]; decide), if_pos hident, hname, some_bind] at hloop
      dsimp only at hloop
      rw [hnext, some_bind] at hloop
      exact ⟨k, s₂, hloop⟩
  | other hat htok hident hsemi heof hnext ih =>
    obtain ⟨k, s₂, hloop⟩ := ih
    cases k with
    | zero => cases hloop
    | succ k =>
      unfold declareLoop at hloop
      rw [htok, some_bind, if_neg (not_or.mpr ⟨hsemi, heof⟩), if_neg hident, some_bind] at hloop
      dsimp only at hloop
      rw [hnext, some_bind] at hloop
      exact ⟨k, s₂, hloop⟩

theorem declaresInside_of_parseDeclaration (hend : EndsAt tokens e)
    (h : parseDeclaration tokens fuel type s = some s') : DeclaresInside tokens type s.gen.pos s := by
  intro j s₁ tok hat htok hident
  obtain ⟨s₂, hloop, -⟩ := bind_eq_some_iff.mp h
  obtain ⟨k, s₃, hloop⟩ := declareLoop_at hloop hat
  cases k with
  | zero => cases hloop
  | succ k =>
    unfold declareLoop at hloop
    rw [htok, some_bind, if_neg (by rw [hident]; decide), if_pos hident] at hloop
    obtain ⟨⟨j', s₄⟩, hname, hloop⟩ := bind_eq_some_iff.mp hloop
    obtain ⟨q, hq, -⟩ := bind_eq_some_iff.mp hloop
    obtain ⟨s₅, hdeclare, hname⟩ := bind_eq_some_iff.mp hname
    refine ⟨storable_of_declare hdeclare, fun hassign heof => ?_⟩
    obtain ⟨next, hnext, hname⟩ := bind_eq_some_iff.mp hname
    rw [hassign] at hnext
    obtain rfl := some.inj hnext
    obtain ⟨value, -, hname⟩ := bind_eq_some_iff.mp hname
    cases hname
    obtain ⟨-, found, hfound⟩ := skipIf_le hq
    have hlow := hend.first _ heof
    have hhigh := hend.le_of_typeAt hfound
    omega

theorem storable_of_parseAssignment (h : parseAssignment tokens fuel name s = some s')
    (hnew : symtabLookup s.symtab name = none) : Storable s.symtab name := by
  obtain ⟨x, hlookup, -⟩ := bind_eq_some_iff.mp h
  exact storable_of_lookupOrDeclare hlookup hnew

theorem exprInside_of_parseAssignment {sym : Symbol} {s₁ : Parser} {rhs : Token}
    (h : parseAssignment tokens fuel name s = some s') (hlookup : lookupOrDeclare s name = some (some sym, s₁))
    (hrhs : tokens[s.gen.pos + 2]? = some rhs)
    (hcall : ¬ (rhs.type = .tokIdent ∧ typeAt tokens (s.gen.pos + 3) = some .tokLparen)) :
    ExprInside tokens s₁.symtab fuel false precNone { s₁.gen with pos := s.gen.pos + 2 } := by
  unfold parseAssignment at h
  rw [hlookup, some_bind] at h
  dsimp only at h
  rw [hrhs, some_bind, ite_bind] at h
  obtain ⟨called, hcalled, h⟩ := bind_eq_some_iff.mp h
  have hnot : called = false := by
    by_cases hident : rhs.type = .tokIdent
    · rw [if_pos hident] at hcalled
      obtain ⟨type, htype, rfl⟩ := map_eq_some_iff.mp hcalled
      exact decide_eq_false fun hlparen => hcall ⟨hident, hlparen ▸ htype⟩
    · rw [if_neg hident] at hcalled
      exact (some.inj hcalled).symm
  rw [hnot, if_neg Bool.false_ne_true] at h
  obtain ⟨x, hparse, -⟩ := bind_eq_some_iff.mp h
  exact exprInside_of_parseAt hparse

theorem exprInside_of_parseCompound {op : List Byte} {sym : Symbol}
    (h : parseCompound tokens fuel name op s = some s') (hsym : symtabLookup s.symtab name = some sym) :
    ExprInside tokens s.symtab fuel false precNone { s.gen with pos := s.gen.pos + 2 } := by
  unfold parseCompound at h
  rw [hsym] at h
  obtain ⟨x, hparse, -⟩ := bind_eq_some_iff.mp h
  exact exprInside_of_parseAt hparse

theorem parseForInit_assign (h : parseForInit tokens fuel s = some s')
    (htok : tokens[s.gen.pos]? = some tok) (hident : tok.type = .tokIdent)
    (hassign : typeAt tokens (s.gen.pos + 1) = some .tokAssign) :
    ∃ sym s₁, lookupOrDeclare s tok.str = some (sym, s₁) ∧ (sym ≠ none →
      ∃ x, parseAt tokens fuel s₁ (s.gen.pos + 2) = some x) := by
  unfold parseForInit at h
  dsimp only at h
  have hmatch : matchTypes tokens s.gen.pos [.tokIdent, .tokAssign] = some true := by
    rw [matchTypes, typeAt_eq htok, some_bind, if_pos hident, matchTypes, hassign, some_bind,
      if_pos rfl, matchTypes]
  rw [htok, some_bind, if_neg (by rw [hident]; decide), hmatch, some_bind, if_pos rfl] at h
  obtain ⟨⟨sym, s₁⟩, hlookup, h⟩ := bind_eq_some_iff.mp h
  refine ⟨sym, s₁, hlookup, fun hsome => ?_⟩
  cases sym with
  | none => exact absurd rfl hsome
  | some sym =>
    obtain ⟨x, hparse, -⟩ := bind_eq_some_iff.mp h
    exact ⟨x, hparse⟩

theorem exprInside_of_parseCondition {isFor : Bool} {x : Bool × Parser} {next : TokenType}
    (h : parseCondition tokens fuel isFor s = some x) (hnext : typeAt tokens s.gen.pos = some next)
    (hsemi : isFor = true → next ≠ .tokSemicolon) (hrparen : next ≠ .tokRparen) :
    ExprInside tokens s.symtab fuel false precNone s.gen := by
  unfold parseCondition at h
  rw [hnext, some_bind, if_neg, if_neg fun hmissing => hrparen hmissing.2] at h
  · obtain ⟨x, hparse, -⟩ := bind_eq_some_iff.mp h
    exact exprInside_of_parseAt (s := { s with ctrl := { s.ctrl with loopTop := s.gen.out.length } }) hparse
  · rintro ⟨hfor, hempty⟩
    exact hempty.elim (hsemi hfor) hrparen

theorem parseControl_opened {type : CtrlType} (h : parseControl tokens fuel type s = some s')
    (hlparen : typeAt tokens (s.gen.pos + 1) = some .tokLparen) :
    ∃ s₁, (if type = .forLoop then parseForInit tokens fuel (headOpened s) else some (headOpened s)) =
      some s₁ ∧ ∃ x, parseCondition tokens fuel (decide (type = .forLoop)) s₁ = some x := by
  unfold parseControl at h
  change (typeAt tokens (s.gen.pos + 1)).bind _ = _ at h
  rw [hlparen, bind_some, if_neg (not_not.mpr rfl)] at h
  by_cases hfor : type = .forLoop
  · rw [decide_eq_true hfor, if_pos rfl] at h
    obtain ⟨s₁, hinit, h⟩ := bind_eq_some_iff.mp h
    obtain ⟨x, hcondition, -⟩ := bind_eq_some_iff.mp h
    rw [decide_eq_true hfor, if_pos hfor]
    exact ⟨s₁, hinit, x, hcondition⟩
  · rw [decide_eq_false hfor, if_neg Bool.false_ne_true] at h
    rw [decide_eq_false hfor, if_neg hfor]
    obtain ⟨x, hcondition, -⟩ : ∃ x, parseCondition tokens fuel false (headOpened s) = some x ∧ _ :=
      bind_eq_some_iff.mp h
    exact ⟨_, rfl, x, hcondition⟩

theorem exprInside_of_closeBrace (h : closeBrace tokens fuel s = some s')
    (hfor : s.ctrl.type = .forLoop) (hinner : s.braceDepth = s.ctrl.outerDepth + 1)
    (hpos : s.ctrl.incPos ≠ 0) (htok : tokens[s.ctrl.incPos]? = some tok) (hident : tok.type = .tokIdent)
    (hassign : typeAt tokens (s.ctrl.incPos + 1) = some .tokAssign) :
    ExprInside tokens s.symtab fuel false precNone { s.gen with pos := s.ctrl.incPos + 2 } := by
  have hnot : s.ctrl.type ≠ .ifThen := by
    rw [hfor]
    decide
  unfold closeBrace at h
  rw [if_neg fun hthen => hnot hthen.1, if_neg fun helse => hnot helse.1, if_pos ⟨.inr hfor, hinner⟩] at h
  unfold closeLoop at h
  rw [ite_bind, if_pos hfor] at h
  obtain ⟨s₁, hincrement, -⟩ := bind_eq_some_iff.mp h
  unfold parseForIncrement at hincrement
  rw [if_neg hpos, htok, some_bind, if_neg (not_not.mpr hident), hassign,
    some_bind, if_neg (by decide), if_pos rfl] at hincrement
  obtain ⟨x, hparse, -⟩ := bind_eq_some_iff.mp hincrement
  exact exprInside_of_parseAt hparse

theorem parseTurn_plain {next : TokenType} (htok : tokens[s.gen.pos]? = some tok)
    (hident : tok.type = .tokIdent) (hasm : tok.str ≠ cstring "asm")
    (hnext : typeAt tokens (s.gen.pos + 1) = some next) (hlparen : next ≠ .tokLparen) :
    parseTurn tokens fuel s = parseNamed tokens fuel tok.str s := by
  obtain ⟨op, hop, rfl⟩ := map_eq_some_iff.mp hnext
  have hfrom := from_of_read htok
  rw [drop_of_read hop] at hfrom
  rw [parseTurn_name hfrom hident hlparen, if_neg hasm]

theorem parseTurn_print {format : CString} (hat : PrintsAt tokens s.gen.pos format) :
    parseTurn tokens fuel s = parsePrint tokens format s := by
  obtain ⟨tok, htok, hident, hname⟩ := hat.name
  obtain ⟨text, htext, htype, hformat⟩ := hat.string
  have hhead : functionHead tokens s.gen.pos = some none :=
    functionHead_other (from_of_read htok) (by rw [hident]; decide) (by rw [hident]; decide)
      (by rw [hident]; decide)
  have hmatch : matchTypes tokens (s.gen.pos + 1) [.tokLparen, .tokString] = some true := by
    rw [matchTypes, hat.lparen, some_bind, if_pos rfl, matchTypes, typeAt_eq htext, some_bind,
      if_pos htype, matchTypes]
  unfold parseTurn
  dsimp only
  rw [htok, some_bind, hhead, some_bind]
  rw [if_pos (hname.imp (fun h => ⟨hident, h⟩) fun h => ⟨hident, h⟩), hmatch, some_bind, if_pos rfl,
    htext, some_bind, hformat]

theorem turnInside_of_parseTurn (hend : EndsAt tokens e) (h : parseTurn tokens fuel s = some s')
    (hpos : s'.gen.pos ≤ e) : TurnInside tokens fuel s where
  returns := by
    intro hreturn
    rw [parseTurn_word hreturn (by decide)] at h
    obtain ⟨tok, htok, h⟩ := bind_eq_some_iff.mp h
    have htype := typeAt_eq htok
    by_cases hnumber : tok.type = .tokNumber
    · rw [if_pos hnumber] at h
      cases h
      have hpos : s.gen.pos + 3 ≤ e := hpos
      refine ⟨fun heof => ?_, fun _ heof => ?_⟩
      · have := hend.first _ heof
        omega
      · have := hend.first _ heof
        omega
    · rw [if_neg hnumber] at h
      cases h
      have hpos : s.gen.pos + 2 ≤ e := hpos
      refine ⟨fun heof => ?_, fun hnum => absurd (some.inj (htype.symm.trans hnum)) hnumber⟩
      have := hend.first _ heof
      omega
  prints := by
    intro format hat htakes heof
    rw [parseTurn_print hat] at h
    obtain ⟨s₁, hloop, -⟩ := bind_eq_some_iff.mp h
    have hhigh := formatLoop_reads hend format 0 [] s s₁ hloop htakes
    have hlow := hend.first _ heof
    omega
  declares := by
    intro first hfirst hdecl hident hlparen
    obtain ⟨tok, htok, rfl⟩ := map_eq_some_iff.mp hfirst
    obtain ⟨x, hx, hxtype⟩ := map_eq_some_iff.mp hident
    have hlt := hend.lt_of_read hx (by rw [hxtype]; decide)
    obtain ⟨u, hu, -⟩ := hend.read (p := s.gen.pos + 2) hlt
    have hfrom := from_of_read htok
    rw [drop_of_read hx, drop_of_read hu] at hfrom
    have hnot : u.type ≠ .tokLparen := fun hut => hlparen (hut ▸ typeAt_eq hu)
    rw [parseTurn_declaration hfrom hdecl hxtype hnot] at h
    exact declaresInside_of_parseDeclaration hend h
  assigns := by
    intro name hat hnew
    cases hat with
    | statement htok hident hasm hassign =>
      rw [parseTurn_plain htok hident hasm hassign (by decide)] at h
      unfold parseNamed at h
      rw [hassign, some_bind] at h
      exact storable_of_parseAssignment (if_pos rfl ▸ h) hnew
    | init hfor hlparen htok hident hassign =>
      rw [parseTurn_word hfor (by decide)] at h
      obtain ⟨s₁, hinit, -⟩ := parseControl_opened h hlparen
      rw [if_pos rfl] at hinit
      obtain ⟨sym, s₂, hlookup, -⟩ := parseForInit_assign hinit htok hident hassign
      have hstored : Storable (headOpened s).symtab _ := storable_of_lookupOrDeclare hlookup hnew
      exact hstored
  evaluates := by
    intro tab g hat
    cases hat with
    | compound htok hident hasm hnext hop hsym =>
      rw [parseTurn_plain htok hident hasm hnext (by rintro rfl; cases hop)] at h
      unfold parseNamed at h
      rw [hnext, some_bind, hop] at h
      exact exprInside_of_parseCompound h hsym
    | assignment htok hident hasm hassign hsym hrhs hcall =>
      rw [parseTurn_plain htok hident hasm hassign (by decide)] at h
      unfold parseNamed at h
      rw [hassign, some_bind] at h
      exact exprInside_of_parseAssignment (if_pos rfl ▸ h) hsym hrhs hcall
    | increment hrbrace hfor hinner hinc htok hident hassign =>
      rw [parseTurn_word hrbrace (by decide)] at h
      exact exprInside_of_closeBrace h hfor hinner hinc htok hident hassign
    | init hfor hlparen htok hident hassign hsym =>
      rw [parseTurn_word hfor (by decide)] at h
      obtain ⟨s₁, hinit, -⟩ := parseControl_opened h hlparen
      rw [if_pos rfl] at hinit
      obtain ⟨sym, s₂, hlookup, hparse⟩ := parseForInit_assign hinit htok hident hassign
      rw [hsym] at hlookup
      cases hlookup
      obtain ⟨x, hparse⟩ := hparse (by simp)
      exact exprInside_of_parseAt hparse
    | condition hhead hlparen hnext hrparen =>
      rcases hhead with hhead | hhead
      · rw [parseTurn_word hhead (by decide)] at h
        obtain ⟨s₁, hs₁, x, hcondition⟩ := parseControl_opened h hlparen
        cases hs₁
        exact exprInside_of_parseCondition hcondition hnext (fun h => nomatch h) hrparen
      · rw [parseTurn_word hhead (by decide)] at h
        obtain ⟨s₁, hs₁, x, hcondition⟩ := parseControl_opened h hlparen
        cases hs₁
        exact exprInside_of_parseCondition hcondition hnext (fun h => nomatch h) hrparen
    | test hfor hlparen hinit hnext hsemi hrparen =>
      rw [parseTurn_word hfor (by decide)] at h
      obtain ⟨s₁, hs₁, x, hcondition⟩ := parseControl_opened h hlparen
      rw [if_pos rfl, hinit] at hs₁
      cases hs₁
      exact exprInside_of_parseCondition hcondition hnext (fun _ => hsemi) hrparen

end Turn

section Run

variable {tokens : List Token} {size e fuel : Nat} {g : Gen}

theorem EndsAt.of_first (heof : typeAt tokens e = some .tokEof)
    (hfirst : ∀ p < e, typeAt tokens p ≠ some .tokEof) : EndsAt (tokens.take (e + 1)) e := by
  obtain ⟨last, hlast, -⟩ := map_eq_some_iff.mp heof
  have hlt := (List.getElem?_eq_some_iff.mp hlast).1
  have hread : ∀ p ≤ e, typeAt (tokens.take (e + 1)) p = typeAt tokens p := by
    intro p hp
    unfold typeAt
    rw [getElem?_take_of_lt (Nat.lt_succ_of_le hp)]
  refine
    { length := length_take_of_le hlt
      eof := (hread e le_rfl).trans heof
      first := fun p hp => ?_ }
  by_contra hbefore
  have hle : p ≤ e := Nat.le_of_lt (Nat.lt_of_not_le hbefore)
  exact hfirst p (Nat.lt_of_not_le hbefore) ((hread p hle).symm.trans hp)

theorem Reached.parseLoop {n : Nat} {s s' : Parser} (hreached : Reached tokens size fuel g s)
    (h : Tcc.parseLoop tokens size fuel n (initialParser g) = some s') :
    ∃ k, Tcc.parseLoop tokens size fuel k s = some s' := by
  induction hreached with
  | start => exact ⟨n, h⟩
  | turn hreached hgoing hturn ih =>
    obtain ⟨k, hloop⟩ := ih
    obtain ⟨type, htype, hgo⟩ := hgoing
    cases k with
    | zero => cases hloop
    | succ k =>
      unfold Tcc.parseLoop at hloop
      rw [htype, some_bind, if_pos hgo, hturn] at hloop
      exact ⟨k, hloop⟩

theorem runInside_of_parseCTokens (hend : EndsAt tokens e) {out : List Byte}
    (h : parseCTokens fuel tokens size g = some out) : RunInside tokens size fuel g := by
  intro s hreached hgoing
  obtain ⟨s', hloop, -⟩ := map_eq_some_iff.mp h
  obtain ⟨k, hloop⟩ := hreached.parseLoop hloop
  obtain ⟨type, htype, hgo⟩ := id hgoing
  cases k with
  | zero => cases hloop
  | succ k =>
    unfold Tcc.parseLoop at hloop
    rw [htype, some_bind, if_pos hgo] at hloop
    obtain ⟨s₁, hturn, hloop⟩ := bind_eq_some_iff.mp hloop
    obtain ⟨k', hloop'⟩ : ∃ k', Tcc.parseLoop tokens size fuel k' s₁ = some s' := ⟨k, hloop⟩
    cases k' with
    | zero => cases hloop'
    | succ k' =>
      obtain ⟨type₁, htype₁, -⟩ := bind_eq_some_iff.mp hloop'
      exact turnInside_of_parseTurn hend hturn (hend.le_of_typeAt htype₁)

/-- `expr_parse` comes back exactly where every call that it comes to is closed and stored, and `parse_c_tokens`
exactly when every turn of its main loop stays inside. -/
theorem parsed_iff_inside (heof : typeAt tokens e = some .tokEof)
    (hfirst : ∀ p < e, typeAt tokens p ≠ some .tokEof) (hfuel : 40 * (e + 1) + 1 ≤ fuel) :
    (∀ tab g, g.pos ≤ e →
      ((∃ r g', exprParse (tokens.take (e + 1)) tab fuel g = some (r, g') ∧ g'.pos ≤ e) ↔
        ExprInside (tokens.take (e + 1)) tab fuel false precNone g)) ∧
    ∀ size g, (∃ out, parseCTokens fuel (tokens.take (e + 1)) size g = some out) ↔
      RunInside (tokens.take (e + 1)) size fuel g := by
  have hend := EndsAt.of_first heof hfirst
  constructor
  · intro tab g hpos
    constructor
    · rintro ⟨r, g', hexpr, -⟩
      exact (inside fuel).expr _ _ _ _ hexpr
    · intro hin
      obtain ⟨r, g', hexpr, -, hhigh, -⟩ := exprParse_halts hend hpos (by omega) hin
      exact ⟨r, g', hexpr, hhigh⟩
  · intro size g
    constructor
    · rintro ⟨out, hout⟩
      exact runInside_of_parseCTokens hend hout
    · exact fun h => h.parseCTokens hend hfuel

end Run

section Trial

def bareReturn : List Token := [symbolToken .tokReturn, symbolToken .tokEof]

def openCall : List Token :=
  [nameToken "f", symbolToken .tokLparen, numberToken 1, symbolToken .tokEof]

theorem parsed_iff_inside_assignX : RunInside ((assignX ++ [symbolToken .tokEof]).take 5) 4096 201 freshGen :=
  ((@parsed_iff_inside (assignX ++ [symbolToken .tokEof]) 4 201 rfl (by decide) (by decide)).2 4096
    freshGen).mp (isSome_iff_exists.mp (by decide +kernel))

/-- Both arrays end with their only `TOK_EOF`, and no number of steps is enough for the parser to come back
without a token behind it. -/
theorem not_inside_bareReturn : (typeAt bareReturn 1 = some .tokEof ∧ typeAt bareReturn 0 ≠ some .tokEof ∧
      ∀ fuel, parseCTokens fuel (bareReturn.take 2) 4096 freshGen = none) ∧
    (typeAt openCall 3 = some .tokEof ∧ (∀ p < 3, typeAt openCall p ≠ some .tokEof) ∧
      ∀ fuel, exprParse (openCall.take 4) symtabInit fuel freshGen = none) := by
  refine ⟨⟨rfl, by decide, fun fuel => ?_⟩, rfl, by decide, fun fuel => ?_⟩
  · have hend : EndsAt (bareReturn.take 2) 1 := EndsAt.of_first rfl (by decide)
    refine eq_none_iff_forall_ne_some.mpr fun out hout => ?_
    have hturn := runInside_of_parseCTokens hend hout _ .start ⟨.tokReturn, rfl, by decide, by decide⟩
    exact (hturn.returns rfl).1 rfl
  · refine eq_none_iff_forall_ne_some.mpr fun out hout => ?_
    have hin := (inside fuel).expr false precNone freshGen out hout
    match fuel with
    | 0 => cases hout
    | 1 => cases hout
    | fuel + 2 =>
      -- the argument at token 2 has no comma and no parenthesis behind it
      obtain ⟨q, hq, hstop, -⟩ := hin.1.1 0 2 .first (by decide) (by decide) (by decide)
      have hlt : q < 4 := by
        rcases hstop with h | h
        · exact (List.getElem?_eq_some_iff.mp (map_eq_some_iff.mp h).choose_spec.1).1
        · exact (List.getElem?_eq_some_iff.mp (map_eq_some_iff.mp h).choose_spec.1).1
      obtain rfl | rfl : q = 2 ∨ q = 3 := by omega
      · revert hstop
        decide
      · revert hstop
        decide

end Trial

end JexOs.Tcc
