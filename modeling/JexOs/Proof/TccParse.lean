import JexOs.Proof.TccGrammar

/-!
# The code of an expression

On the tokens of an expression `expr_parse` emits the code of its tree: whatever a loop returns behind the
expression, the call at its start returns.
-/

namespace JexOs.Tcc

open X86 (Byte)
open List Option

def Extends {α : Type} (x y : Option α) : Prop := ∀ r, x = some r → y = some r

theorem Extends.refl {α : Type} (x : Option α) : Extends x x := fun _ h => h

theorem Extends.of_eq_none {α : Type} {x : Option α} (y : Option α) (h : x = none) : Extends x y := by
  intro r hr
  rw [h] at hr
  cases hr

theorem Extends.bind {α β : Type} (x : Option α) {f f' : α → Option β}
    (h : ∀ a, Extends (f a) (f' a)) : Extends (x >>= f) (x >>= f') := by
  cases x with
  | none => exact Extends.refl _
  | some a => exact h a

variable {x x' : Option (Int × Gen)} {g : Gen}

theorem Extends.orFail {f f' : Gen → Option (Int × Gen)}
    (hx : Extends x x') (hf : ∀ g, Extends (f g) (f' g)) : Extends (orFail x f) (orFail x' f') := by
  cases x with
  | none => exact Extends.of_eq_none _ rfl
  | some a =>
    obtain ⟨r, g⟩ := a
    rw [hx _ rfl]
    unfold Tcc.orFail
    simp only [some_bind]
    split
    · exact Extends.refl _
    · exact hf g

theorem Extends.keepPos (i : Nat) (hx : Extends x x') : Extends (keepPos i x) (keepPos i x') := by
  cases x with
  | none => exact Extends.of_eq_none _ rfl
  | some a =>
    rw [hx _ rfl]
    exact Extends.refl _

section Fuel

variable (tokens : List Token) (tab : Symtab)

structure Steady (fuel : Nat) : Prop where
  primary : ∀ g, Extends (parsePrimary tokens tab fuel g) (parsePrimary tokens tab (fuel + 1) g)
  args : ∀ args g, Extends (pushArgs tokens tab fuel args g) (pushArgs tokens tab (fuel + 1) args g)
  expr : ∀ lhs p g,
    Extends (parseExpr1 tokens tab fuel lhs p g) (parseExpr1 tokens tab (fuel + 1) lhs p g)
  climb : ∀ p g, Extends (climb tokens tab fuel p g) (climb tokens tab (fuel + 1) p g)
  higher : ∀ p g,
    Extends (climbHigher tokens tab fuel p g) (climbHigher tokens tab (fuel + 1) p g)

variable {tokens tab}

theorem Steady.primary_succ {fuel : Nat} (h : Steady tokens tab fuel) (g : Gen) :
    Extends (parsePrimary tokens tab (fuel + 1) g) (parsePrimary tokens tab (fuel + 2) g) := by
  refine Extends.bind _ fun tok => ?_
  cases tok.type
  case tokIdent =>
    refine Extends.bind _ fun next => ?_
    cases next.type
    case tokLparen =>
      refine Extends.bind _ fun scanned => ?_
      obtain ⟨args, behind⟩ := scanned
      cases args with
      | none => exact Extends.refl _
      | some args => exact Extends.orFail (h.args _ _) fun _ => Extends.refl _
    case tokLbracket =>
      cases symtabLookup tab tok.str with
      | none => exact Extends.refl _
      | some sym =>
        dsimp only
        split
        · exact Extends.refl _
        · exact Extends.orFail (h.expr _ _ _) fun _ => Extends.refl _
    all_goals exact Extends.refl _
  case tokLparen => exact Extends.orFail (h.expr _ _ _) fun _ => Extends.refl _
  case tokStar | tokPlus | tokMinus | tokLognot | tokNot =>
    exact Extends.orFail (h.primary _) fun _ => Extends.refl _
  all_goals exact Extends.refl _

theorem steady (fuel : Nat) : Steady tokens tab fuel := by
  induction fuel with
  | zero =>
    exact
      { primary := fun _ => Extends.of_eq_none _ (by rw [parsePrimary])
        args := fun _ _ => Extends.of_eq_none _ (by rw [pushArgs])
        expr := fun _ _ _ => Extends.of_eq_none _ (by rw [parseExpr1])
        climb := fun _ _ => Extends.of_eq_none _ (by rw [Tcc.climb])
        higher := fun _ _ => Extends.of_eq_none _ (by rw [climbHigher]) }
  | succ fuel ih =>
    refine
      { primary := ih.primary_succ
        args := ?_
        expr := ?_
        climb := ?_
        higher := ?_ }
    · intro args g
      cases args with
      | nil => exact Extends.refl _
      | cons arg args =>
        exact Extends.orFail ((ih.expr _ _ _).keepPos _) fun g' => ih.args _ _
    · intro lhs p g
      cases lhs with
      | true => exact ih.climb _ _
      | false => exact Extends.orFail (ih.primary _) fun g => ih.climb _ _
    · intro p g
      refine Extends.bind _ fun tok => ?_
      split
      · exact Extends.refl _
      · split
        · exact Extends.refl _
        · refine Extends.orFail (ih.primary _) fun g => Extends.orFail (ih.higher _ _) fun g => ?_
          dsimp only
          split
          · exact Extends.refl _
          · exact ih.climb _ _
    · intro p g
      refine Extends.bind _ fun tok => ?_
      split
      · exact Extends.orFail (ih.expr _ _ _) fun g => ih.higher _ _
      · exact Extends.refl _

end Fuel

def Returns (f : Nat → Option (Int × Gen)) (r : Int × Gen) : Prop := ∃ n, ∀ k, n ≤ k → f k = some r

theorem orFail_zero (f : Gen → Option (Int × Gen)) (h : x = some (0, g)) : orFail x f = f g := by
  rw [h]
  rfl

theorem orFail_orFail {f : Gen → Option (Int × Gen)} (h : orFail x f = some (0, g))
    (next : Gen → Option (Int × Gen)) :
    orFail x (fun g => orFail (f g) next) = next g := by
  cases x with
  | none => cases h
  | some a =>
    obtain ⟨r, g₁⟩ := a
    unfold orFail at h
    simp only [some_bind] at h
    by_cases hneg : r < 0
    · rw [if_pos hneg] at h
      cases h
    · rw [if_neg hneg] at h
      have hstep : orFail (some (r, g₁)) (fun g => orFail (f g) next) = orFail (f g₁) next := if_neg hneg
      rw [hstep, orFail_zero next h]

def StepOp.emitChar : StepOp → List Byte
  | .inc => emitAddEaxImm 1
  | .dec => emitSubEaxOne

def StepOp.emit (sym : Symbol) : StepOp → List Byte
  | .inc => emitIncrement sym
  | .dec => emitDecrement sym

def BinOp.emit : BinOp → List Byte
  | .mul => [0x0F, 0xAF, 0xC3]
  | .div => [0x93, 0x99, 0xF7, 0xFB]
  | .mod => [0x93, 0x99, 0xF7, 0xFB, 0x89, 0xD0]
  | .add => [0x03, 0xC3]
  | .sub => emitOperands ++ [0x29, 0xC8]
  | .shl => emitOperands ++ [0xD3, 0xE0]
  | .shr => emitOperands ++ [0xD3, 0xE8]
  | .lt => emitCompare emitSetlAl
  | .gt => emitCompare emitSetgAl
  | .le => emitCompare emitSetleAl
  | .ge => emitCompare emitSetgeAl
  | .eq => emitCompare emitSeteAl
  | .ne => emitCompare emitSetneAl

def Expr.code (tab : Symtab) : Expr → List Byte
  | .num n => emitMovEaxImm (BitVec.ofInt 32 n)
  | .var x => emitLoad (symbolOf tab x)
  | .pre op x => emitPrefix (symbolOf tab x) op.emitChar (op.emit (symbolOf tab x))
  | .post op x =>
    emitLoad (symbolOf tab x) ++
      emitPostfix (symbolOf tab x) op.emitChar (op.emit (symbolOf tab x))
  | .paren e => e.code tab
  | .unary op e => e.code tab ++ emitUnary op.token
  | .binary op l r => l.code tab ++ emitPushEax ++ r.code tab ++ emitPopEbx ++ op.emit

structure Emitted (g g' : Gen) (n : Nat) (bytes : List Byte) : Prop where
  pos : g'.pos = g.pos + n
  out : g'.out = g.out ++ bytes
  plain : g'.lastIdentType ≠ .ptr
  left : g.leftIsPointer = false → g'.leftIsPointer = false
  funcs : g'.funcTable = g.funcTable
  relocs : g'.relocTable = g.relocTable

theorem Emitted.trans {g' g'' : Gen} {n n' : Nat} {bytes bytes' : List Byte}
    (h : Emitted g g' n bytes) (h' : Emitted g' g'' n' bytes') : Emitted g g'' (n + n') (bytes ++ bytes') :=
  { pos := by rw [h'.pos, h.pos, Nat.add_assoc]
    out := by rw [h'.out, h.out, append_assoc]
    plain := h'.plain
    left := fun hleft => h'.left (h.left hleft)
    funcs := h'.funcs.trans h.funcs
    relocs := h'.relocs.trans h.relocs }

theorem Emitted.emit_skip (hplain : g.lastIdentType ≠ .ptr) (n : Nat) (bytes : List Byte) :
    Emitted g ((g.emit bytes).skip n) n bytes :=
  { pos := rfl
    out := rfl
    plain := hplain
    left := fun hleft => hleft
    funcs := rfl
    relocs := rfl }

theorem Emitted.skip (hplain : g.lastIdentType ≠ .ptr) (n : Nat) : Emitted g (g.skip n) n [] :=
  { pos := rfl
    out := (append_nil _).symm
    plain := hplain
    left := fun hleft => hleft
    funcs := rfl
    relocs := rfl }

theorem precedence_token (op : BinOp) : exprGetPrecedence op.token = op.level + 3 := by
  cases op <;> rfl

theorem isBinaryOp_token (op : BinOp) : exprIsBinaryOp op.token = true := by
  cases op <;> rfl

def Attaches (type : TokenType) : Prop :=
  type = .tokLparen ∨ type = .tokLbracket ∨ type = .tokPlusplus ∨ type = .tokMinusminus

instance (type : TokenType) : Decidable (Attaches type) := inferInstanceAs (Decidable (_ ∨ _))

theorem not_attaches_token (op : BinOp) : ¬ Attaches op.token := by
  cases op <;> decide

/-- The token may stand behind the expression as an operand of what comes. -/
structure Follows (e : Expr) (t : Token) : Prop where
  attaches : ¬ Attaches t.type
  binds : exprIsBinaryOp t.type = true → exprGetPrecedence t.type ≤ e.level + 3

theorem BinOp.level_lt_unary (op : BinOp) : op.level < unaryLevel := by
  cases op <;> decide

def At (tokens : List Token) (g : Gen) (ts : List Token) : Prop :=
  ∃ before, tokens = before ++ ts ∧ before.length = g.pos

section Tokens

variable {tokens ts : List Token} {t : Token} {g g' : Gen}

theorem At.head (h : At tokens g (t :: ts)) : tokens[g.pos]? = some t := by
  obtain ⟨before, rfl, hlength⟩ := h
  rw [← hlength, getElem?_append_right le_rfl, Nat.sub_self]
  rfl

theorem At.advance {ts' : List Token} (h : At tokens g (ts ++ ts'))
    (hpos : g'.pos = g.pos + ts.length) : At tokens g' ts' := by
  obtain ⟨before, rfl, hlength⟩ := h
  refine ⟨before ++ ts, by rw [append_assoc], ?_⟩
  rw [length_append, hlength, hpos]

theorem At.tail (h : At tokens g (t :: ts)) (hpos : g'.pos = g.pos + 1) : At tokens g' ts :=
  At.advance (show At tokens g ([t] ++ ts) from h) hpos

theorem At.second {u : Token} (h : At tokens g (t :: u :: ts)) : tokens[g.pos + 1]? = some u := by
  have htail : At tokens (g.skip 1) (u :: ts) := h.tail rfl
  exact htail.head

end Tokens

section Parser

variable {tokens : List Token} {tab : Symtab}

def ReadsPrimary (tokens : List Token) (tab : Symtab) (e : Expr) (ts : List Token) : Prop :=
  ∀ g t rest, At tokens g (ts ++ t :: rest) → g.lastIdentType ≠ .ptr → ¬ Attaches t.type →
    ∃ g', Emitted g g' ts.length (e.code tab) ∧
      Returns (fun k => parsePrimary tokens tab k g) (0, g')

def ReadsExpr (tokens : List Token) (tab : Symtab) (e : Expr) (ts : List Token) : Prop :=
  ∀ p g t rest, p ≤ e.level + 3 → At tokens g (ts ++ t :: rest) → g.lastIdentType ≠ .ptr →
    Follows e t →
    ∃ g', Emitted g g' ts.length (e.code tab) ∧ ∀ r,
      Returns (fun k => climb tokens tab k p g') r →
      Returns (fun k => parseExpr1 tokens tab k false p g) r

def ReadsOperand (tokens : List Token) (tab : Symtab) (e : Expr) (ts : List Token) : Prop :=
  ∀ q g t rest, q < e.level + 3 → At tokens g (ts ++ t :: rest) → g.lastIdentType ≠ .ptr →
    Follows e t →
    ∃ g', Emitted g g' ts.length (e.code tab) ∧ ∀ r,
      Returns (fun k => climbHigher tokens tab k q g') r →
      Returns (fun k => orFail (parsePrimary tokens tab k g) fun g => climbHigher tokens tab k q g) r

variable {r : Int × Gen} {f : Nat → Option (Int × Gen)} {g : Gen} {ts rest : List Token} {e : Expr}
  {t : Token}

theorem Returns.succ (h : Returns (fun k => f (k + 1)) r) : Returns f r := by
  obtain ⟨n, hn⟩ := h
  refine ⟨n + 1, fun k hk => ?_⟩
  obtain ⟨k, rfl⟩ : ∃ j, k = j + 1 := ⟨k - 1, by omega⟩
  exact hn k (by omega)

theorem Returns.of_succ (h : ∀ k, f (k + 1) = some r) : Returns f r := Returns.succ ⟨0, fun k _ => h k⟩

theorem Returns.orFail {next : Nat → Gen → Option (Int × Gen)}
    (hf : Returns f (0, g)) (hnext : Returns (fun k => next k g) r) :
    Returns (fun k => orFail (f k) (next k)) r := by
  obtain ⟨n, hn⟩ := hf
  obtain ⟨n', hn'⟩ := hnext
  refine ⟨max n n', fun k hk => ?_⟩
  exact (orFail_zero (next k) (hn k (by omega))).trans (hn' k (by omega))

theorem Returns.keepPos {r : Int} (i : Nat)
    (hf : Returns f (r, g)) : Returns (fun k => keepPos i (f k)) (r, { g with pos := i }) := by
  obtain ⟨n, hn⟩ := hf
  refine ⟨n, fun k hk => ?_⟩
  dsimp only
  rw [hn k hk]
  rfl

theorem ReadsPrimary.expr (h : ReadsPrimary tokens tab e ts) : ReadsExpr tokens tab e ts := by
  intro p g t rest _ hat hplain hfollows
  obtain ⟨g', hemitted, hreturns⟩ := h g t rest hat hplain hfollows.attaches
  refine ⟨g', hemitted, fun r hr => Returns.succ ?_⟩
  exact Returns.orFail hreturns hr

theorem ReadsPrimary.operand (h : ReadsPrimary tokens tab e ts) : ReadsOperand tokens tab e ts := by
  intro q g t rest _ hat hplain hfollows
  obtain ⟨g', hemitted, hreturns⟩ := h g t rest hat hplain hfollows.attaches
  exact ⟨g', hemitted, fun r hr => Returns.orFail hreturns hr⟩

theorem applyBinary_token (op : BinOp) (hleft : g.leftIsPointer = false) :
    applyBinary op.token g = (0, g.emit op.emit) := by
  cases op <;> simp only [applyBinary, BinOp.token, BinOp.emit, hleft, Bool.false_eq_true, if_false]

theorem climb_stops {p : Nat} (hat : At tokens g (t :: rest))
    (hless : exprIsBinaryOp t.type = true → exprGetPrecedence t.type < p) :
    ∀ k, climb tokens tab (k + 1) p g = some (0, g) := by
  intro k
  unfold climb
  simp only [hat.head, some_bind]
  by_cases hop : exprIsBinaryOp t.type = true
  · rw [hop, if_neg (by simp), if_pos (hless hop)]
  · rw [if_pos (by simpa using hop)]

theorem climbHigher_stops {q : Nat} (hat : At tokens g (t :: rest))
    (hless : exprIsBinaryOp t.type = true → exprGetPrecedence t.type ≤ q) :
    Returns (fun k => climbHigher tokens tab k q g) (0, g) := by
  refine Returns.of_succ fun k => ?_
  unfold climbHigher
  simp only [hat.head, some_bind]
  rw [if_neg]
  rintro ⟨hop, hgt⟩
  have := hless hop
  omega

theorem climb_round {op : BinOp} {r : Expr} {u : Token} {p : Nat}
    (hr : ReadsOperand tokens tab r ts) (hright : op.level < r.level) (hop : t.type = op.token)
    (hat : At tokens g (t :: (ts ++ u :: rest))) (hplain : g.lastIdentType ≠ .ptr)
    (hattaches : ¬ Attaches u.type)
    (hbinds : exprIsBinaryOp u.type = true → exprGetPrecedence u.type ≤ op.level + 3) (hp : p ≤ op.level + 3) :
    ∃ g', Emitted g g' (1 + ts.length) (emitPushEax ++ r.code tab ++ emitPopEbx ++ op.emit) ∧
      ∃ n, ∀ k, n ≤ k → climb tokens tab (k + 1) p g = climb tokens tab k p g' := by
  have hprec := precedence_token op
  have hpointer : decide (g.lastIdentType = SymType.ptr) = false := decide_eq_false hplain
  -- the state in which the right operand is read
  let g₁ : Gen := { g.skip 1 with leftIsPointer := false }.emit emitPushEax
  have hg₁ : Emitted g g₁ 1 emitPushEax :=
    { pos := rfl
      out := rfl
      plain := hplain
      left := fun _ => rfl
      funcs := rfl
      relocs := rfl }
  have hat₁ : At tokens g₁ (ts ++ u :: rest) := hat.tail rfl
  obtain ⟨g₂, hg₂, hoperand⟩ := hr (op.level + 3) g₁ u rest (by omega) hat₁ hplain
    { attaches := hattaches
      binds := fun h => by
        have := hbinds h
        omega }
  have hat₂ : At tokens g₂ (u :: rest) := hat₁.advance hg₂.pos
  obtain ⟨n, hn⟩ := hoperand (0, g₂) (climbHigher_stops hat₂ hbinds)
  have hleft : g₂.leftIsPointer = false := hg₂.left rfl
  have happly : applyBinary t.type (g₂.emit emitPopEbx) =
      (0, (g₂.emit emitPopEbx).emit op.emit) := by
    rw [hop]
    exact applyBinary_token op hleft
  refine ⟨(g₂.emit emitPopEbx).emit op.emit, ?_, n, fun k hk => ?_⟩
  · have hlast : Emitted g₂ ((g₂.emit emitPopEbx).emit op.emit) 0 (emitPopEbx ++ op.emit) :=
      { pos := rfl
        out := by simp [Gen.emit]
        plain := hg₂.plain
        left := fun h => h
        funcs := rfl
        relocs := rfl }
    have hall := (hg₁.trans hg₂).trans hlast
    simpa [append_assoc] using hall
  · have hround := orFail_orFail (hn k hk) fun g =>
      let r := applyBinary t.type (g.emit emitPopEbx)
      if r.1 < 0 then some (-1, r.2) else climb tokens tab k p r.2
    simp only [happly] at hround
    rw [climb]
    simp only [hat.head, some_bind, hpointer]
    rw [if_neg (by rw [hop, isBinaryOp_token]; simp), if_neg (by rw [hop, hprec]; omega),
      show exprGetPrecedence t.type = op.level + 3 by rw [hop, hprec]]
    exact hround

section Binary

variable {op : BinOp} {l r : Expr} {ts ts' : List Token} {t : Token}

theorem BinOp.follows_left (hleft : op.level ≤ l.level) (hop : t.type = op.token) : Follows l t :=
  { attaches := by
      rw [hop]
      exact not_attaches_token op
    binds := fun _ => by
      rw [hop, precedence_token]
      omega }

theorem code_binary (tab : Symtab) (op : BinOp) (l r : Expr) : (Expr.binary op l r).code tab =
      l.code tab ++ (emitPushEax ++ r.code tab ++ emitPopEbx ++ op.emit) := by
  simp only [Expr.code, append_assoc]

variable (hleft : op.level ≤ l.level) (hop : t.type = op.token) (hright : op.level < r.level)

include hleft hop hright

theorem reads_binary_expr (hl : ReadsExpr tokens tab l ts) (hr : ReadsOperand tokens tab r ts') :
    ReadsExpr tokens tab (.binary op l r) (ts ++ t :: ts') := by
  intro p g u rest hp hat hplain hfollows
  have hlevel : (Expr.binary op l r).level = op.level := rfl
  rw [append_assoc, cons_append] at hat
  obtain ⟨g₁, hg₁, hcont⟩ := hl p g t (ts' ++ u :: rest) (by omega) hat hplain (BinOp.follows_left hleft hop)
  obtain ⟨g₂, hg₂, n, hround⟩ := climb_round hr hright hop (hat.advance hg₁.pos) hg₁.plain
    hfollows.attaches hfollows.binds (hlevel ▸ hp)
  refine ⟨g₂, ?_, fun res hres => hcont res (Returns.succ ?_)⟩
  · have hall := hg₁.trans hg₂
    rw [code_binary]
    simpa [Nat.add_comm, Nat.add_left_comm] using hall
  · obtain ⟨n', hn'⟩ := hres
    refine ⟨max n n', fun k hk => ?_⟩
    exact (hround k (by omega)).trans (hn' k (by omega))

theorem reads_binary_operand (hl : ReadsOperand tokens tab l ts) (hr : ReadsOperand tokens tab r ts') :
    ReadsOperand tokens tab (.binary op l r) (ts ++ t :: ts') := by
  intro q g u rest hq hat hplain hfollows
  have hlevel : (Expr.binary op l r).level = op.level := rfl
  have hprec := precedence_token op
  rw [append_assoc, cons_append] at hat
  obtain ⟨g₁, hg₁, hcont⟩ := hl q g t (ts' ++ u :: rest) (by omega) hat hplain (BinOp.follows_left hleft hop)
  have hat₁ := hat.advance hg₁.pos
  obtain ⟨g₂, hg₂, n, hround⟩ := climb_round (p := op.level + 3) hr hright hop hat₁ hg₁.plain
    hfollows.attaches hfollows.binds le_rfl
  have hat₂ : At tokens g₂ (u :: rest) := by
    have hsame : At tokens g₁ ((t :: ts') ++ u :: rest) := hat₁
    apply hsame.advance
    rw [hg₂.pos, length_cons, Nat.add_comm 1]
  refine ⟨g₂, ?_, fun res hres => hcont res (Returns.succ (Returns.succ (Returns.succ ?_)))⟩
  · have hall := hg₁.trans hg₂
    rw [code_binary]
    simpa [Nat.add_comm, Nat.add_left_comm] using hall
  · obtain ⟨n', hn'⟩ := hres
    refine ⟨max n n' + 1, fun k hk => ?_⟩
    -- the loop calls `parse_expr_1` for the operator, which makes one round and goes on behind it
    have hcall : climbHigher tokens tab (k + 3) q g₁ =
        orFail (climb tokens tab k (op.level + 3) g₂) (climbHigher tokens tab (k + 2) q) := by
      rw [climbHigher]
      simp only [hat₁.head, some_bind]
      rw [if_pos ⟨by rw [hop, isBinaryOp_token], by rw [hop, hprec]; omega⟩, parseExpr1, if_pos rfl,
        hop, hprec, hround k (by omega)]
    refine hcall.trans ?_
    by_cases hsame : exprIsBinaryOp u.type = true ∧ exprGetPrecedence u.type = op.level + 3
    · -- an operator of the same precedence: the call goes on, where a new one would have done so
      have hhigher : climbHigher tokens tab (k + 2) q g₂ = some res := hn' (k + 2) (by omega)
      rw [climbHigher] at hhigher
      simp only [hat₂.head, some_bind] at hhigher
      rw [if_pos ⟨hsame.1, by omega⟩, parseExpr1, if_pos rfl, hsame.2] at hhigher
      exact Extends.orFail (Extends.refl _) (fun g => (steady _).higher q g) res hhigher
    · obtain ⟨k, rfl⟩ : ∃ j, k = j + 1 := ⟨k - 1, by omega⟩
      rw [orFail_zero _ (climb_stops hat₂ (fun h => by
        have := hfollows.binds h
        have hne : exprGetPrecedence u.type ≠ op.level + 3 := fun heq => hsame ⟨h, heq⟩
        omega) k)]
      exact hn' (k + 1 + 2) (by omega)

end Binary

section Operands

variable {t x : Token} {sym : Symbol}

theorem symbolOf_eq {name : CString} (h : symtabLookup tab name = some sym) : symbolOf tab name = sym := by
  unfold symbolOf
  rw [h, getD_some]

theorem reads_num (htype : t.type = .tokNumber) : ReadsPrimary tokens tab (.num t.intVal) [t] := by
  intro g u rest hat hplain _
  refine ⟨_, Emitted.emit_skip hplain 1 _, Returns.of_succ fun k => ?_⟩
  rw [parsePrimary]
  simp only [At.head hat, some_bind, htype]
  rfl

theorem parsePrimary_variable {g : Gen} {u : Token} {rest : List Token}
    (hat : At tokens g (x :: u :: rest)) (htype : x.type = .tokIdent)
    (hlparen : u.type ≠ .tokLparen) (hlbracket : u.type ≠ .tokLbracket) (k : Nat) :
    parsePrimary tokens tab (k + 1) g = parseVariable tokens tab x.str g := by
  have hnext : tokens[g.pos + 1]? = some u := hat.second
  rw [parsePrimary]
  simp only [hat.head, hnext, some_bind, htype]

theorem reads_var (htype : x.type = .tokIdent) (hsym : symtabLookup tab x.str = some sym)
    (hptr : sym.type ≠ .ptr) : ReadsPrimary tokens tab (.var x.str) [x] := by
  intro g u rest hat _ hattaches
  have hnext : tokens[g.pos + 1]? = some u := hat.second
  refine ⟨{ g with
    pos := g.pos + 1
    out := g.out ++ emitLoad sym
    lastIdentType := sym.type
    lastIdentPtrSize := if hasBaseType sym then symTypeSize sym.baseType else 4 },
    ?_, Returns.of_succ fun k => ?_⟩
  · exact
      { pos := rfl
        out := by rw [Expr.code, symbolOf_eq hsym]
        plain := hptr
        left := fun hleft => hleft
        funcs := rfl
        relocs := rfl }
  · rw [parsePrimary_variable hat htype (fun h => hattaches (.inl h)) (fun h => hattaches (.inr (.inl h)))]
    have hplus : u.type ≠ .tokPlusplus := fun h => hattaches (.inr (.inr (.inl h)))
    have hminus : u.type ≠ .tokMinusminus := fun h => hattaches (.inr (.inr (.inr h)))
    unfold parseVariable
    simp only [hsym, Gen.emit, Gen.skip, hnext, some_bind]

theorem reads_post (op : StepOp) (htype : x.type = .tokIdent) (hop : t.type = op.token)
    (hsym : symtabLookup tab x.str = some sym) (hptr : sym.type ≠ .ptr) :
    ReadsPrimary tokens tab (.post op x.str) [x, t] := by
  intro g u rest hat _ _
  have hnext : tokens[g.pos + 1]? = some t := At.second hat
  refine ⟨{ g with
    pos := g.pos + 2
    out := g.out ++ (emitLoad sym ++ emitPostfix sym op.emitChar (op.emit sym))
    lastIdentType := sym.type
    lastIdentPtrSize := if hasBaseType sym then symTypeSize sym.baseType else 4 },
    ?_, Returns.of_succ fun k => ?_⟩
  · exact
      { pos := rfl
        out := by rw [Expr.code, symbolOf_eq hsym]
        plain := hptr
        left := fun hleft => hleft
        funcs := rfl
        relocs := rfl }
  · rw [parsePrimary_variable hat htype (by rw [hop]; cases op <;> decide) (by rw [hop]; cases op <;> decide)]
    unfold parseVariable
    simp only [hsym, Gen.emit, Gen.skip, hnext, some_bind, hop]
    cases op <;> simp only [StepOp.token, StepOp.emit, StepOp.emitChar, append_assoc]

theorem reads_pre (op : StepOp) (hop : t.type = op.token) (htype : x.type = .tokIdent)
    (hsym : symtabLookup tab x.str = some sym) : ReadsPrimary tokens tab (.pre op x.str) [t, x] := by
  intro g u rest hat hplain _
  have hnext : tokens[(g.skip 1).pos]? = some x := At.second hat
  have hcode : (Expr.pre op x.str).code tab = emitPrefix sym op.emitChar (op.emit sym) := by
    rw [Expr.code, symbolOf_eq hsym]
  refine ⟨((g.skip 1).emit (emitPrefix sym op.emitChar (op.emit sym))).skip 1, ?_, Returns.of_succ fun k => ?_⟩
  · rw [hcode]
    exact
      { pos := rfl
        out := rfl
        plain := hplain
        left := fun hleft => hleft
        funcs := rfl
        relocs := rfl }
  · rw [parsePrimary]
    simp only [At.head hat, some_bind, hop]
    cases op <;>
      simp only [StepOp.token, StepOp.emit, StepOp.emitChar, parsePrefixed, hnext, hsym, htype,
        some_bind, ne_eq, not_true_eq_false, if_false]

theorem reads_paren {e : Expr} {ts : List Token} {lp rp : Token} (hlp : lp.type = .tokLparen)
    (he : ReadsExpr tokens tab e ts) (hrp : rp.type = .tokRparen) :
    ReadsPrimary tokens tab (.paren e) (lp :: ts ++ [rp]) := by
  intro g u rest hat hplain _
  have hat' : At tokens g (lp :: (ts ++ rp :: u :: rest)) := by
    simpa [append_assoc] using hat
  have hnot : exprIsBinaryOp rp.type ≠ true := by
    rw [hrp]
    decide
  have hattaches : ¬ Attaches rp.type := by
    rw [hrp]
    decide
  obtain ⟨g₁, hg₁, hcont⟩ := he precNone (g.skip 1) rp (u :: rest) (Nat.zero_le _) (hat'.tail rfl)
    hplain
    { attaches := hattaches
      binds := fun h => absurd h hnot }
  have hat₁ : At tokens g₁ (rp :: u :: rest) := At.advance (hat'.tail rfl) hg₁.pos
  have hinner := hcont (0, g₁) (Returns.of_succ (climb_stops hat₁ fun h => absurd h hnot))
  refine ⟨g₁.skip 1, ?_, Returns.succ ?_⟩
  · have hg : Emitted g (g.skip 1) 1 [] := Emitted.skip hplain 1
    have hlast : Emitted g₁ (g₁.skip 1) 1 [] := Emitted.skip hg₁.plain 1
    have hall := (hg.trans hg₁).trans hlast
    simpa [Expr.code, Nat.add_comm] using hall
  · obtain ⟨n, hn⟩ := hinner
    refine ⟨n, fun k hk => ?_⟩
    show parsePrimary tokens tab (k + 1) g = _
    rw [parsePrimary]
    simp only [At.head hat, some_bind, hlp]
    rw [orFail_zero _ (hn k hk), hat₁.head]
    exact if_pos hrp

theorem reads_unary {e : Expr} {ts : List Token} (op : UnOp) (hop : t.type = op.token)
    (he : ReadsPrimary tokens tab e ts) : ReadsPrimary tokens tab (.unary op e) (t :: ts) := by
  intro g u rest hat hplain hattaches
  obtain ⟨g₁, hg₁, n, hn⟩ := he (g.skip 1) u rest (At.tail hat rfl) hplain hattaches
  refine ⟨g₁.emit (emitUnary op.token), ?_, Returns.succ ⟨n, fun k hk => ?_⟩⟩
  · have hg : Emitted g (g.skip 1) 1 [] := Emitted.skip hplain 1
    have hlast : Emitted g₁ (g₁.emit (emitUnary op.token)) 0 (emitUnary op.token) :=
      Emitted.emit_skip hg₁.plain 0 _
    have hall := (hg.trans hg₁).trans hlast
    simpa [Expr.code, Nat.add_comm] using hall
  · show parsePrimary tokens tab (k + 1) g = _
    rw [parsePrimary]
    simp only [At.head hat, some_bind, hop]
    cases op <;> exact orFail_zero _ (hn k hk)

end Operands

theorem Derives.reads (h : Derives e ts) (hdeclared : e.Declared tab) :
    (e.level = unaryLevel → ReadsPrimary tokens tab e ts) ∧ ReadsExpr tokens tab e ts ∧
      ReadsOperand tokens tab e ts := by
  have hprimary : ∀ {e : Expr} {ts : List Token}, ReadsPrimary tokens tab e ts →
      (e.level = unaryLevel → ReadsPrimary tokens tab e ts) ∧ ReadsExpr tokens tab e ts ∧
        ReadsOperand tokens tab e ts := fun h => ⟨fun _ => h, h.expr, h.operand⟩
  have hplain : ∀ {sym : Symbol}, sym.type = .int ∨ sym.type = .char → sym.type ≠ .ptr := by
    rintro sym (h | h) hptr <;> rw [h] at hptr <;> cases hptr
  induction h with
  | num htype => exact hprimary (reads_num htype)
  | var htype =>
    obtain ⟨sym, hsym, htypes⟩ := hdeclared
    exact hprimary (reads_var htype hsym (hplain htypes))
  | pre op hop htype =>
    obtain ⟨sym, hsym, -⟩ := hdeclared
    exact hprimary (reads_pre op hop htype hsym)
  | post op htype hop =>
    obtain ⟨sym, hsym, htypes⟩ := hdeclared
    exact hprimary (reads_post op htype hop hsym (hplain htypes))
  | paren hlp _ hrp ih => exact hprimary (reads_paren hlp (ih hdeclared).2.1 hrp)
  | unary op hop _ hlevel ih => exact hprimary (reads_unary op hop ((ih hdeclared).1 hlevel))
  | binary op _ hleft hop _ hright ihl ihr =>
    obtain ⟨-, hl, hl'⟩ := ihl hdeclared.1
    obtain ⟨-, -, hr⟩ := ihr hdeclared.2
    refine ⟨fun hlevel => ?_, reads_binary_expr hleft hop hright hl hr,
      reads_binary_operand hleft hop hright hl' hr⟩
    exact absurd hlevel op.level_lt_unary.ne

theorem exprParse_returns (h : Derives e ts) (hdeclared : e.Declared tab) (hat : At tokens g (ts ++ t :: rest))
    (hplain : g.lastIdentType ≠ .ptr) (hattaches : ¬ Attaches t.type) (hop : exprIsBinaryOp t.type = false) :
    ∃ g', Emitted g g' ts.length (e.code tab) ∧ Returns (fun k => exprParse tokens tab k g) (0, g') := by
  have hnot : exprIsBinaryOp t.type ≠ true := by
    rw [hop]
    decide
  obtain ⟨g', hg', hcont⟩ := (h.reads hdeclared).2.1 precNone g t rest (Nat.zero_le _) hat hplain
    { attaches := hattaches
      binds := fun hbinary => absurd hbinary hnot }
  refine ⟨g', hg', hcont _ (Returns.of_succ (climb_stops (hat.advance hg'.pos) ?_))⟩
  exact fun hbinary => absurd hbinary hnot

end Parser

def NoPointer (x : Option (Int × Gen)) : Prop := ∀ r g, x = some (r, g) → g.lastIdentType ≠ .ptr

section Statics

variable {x : Option (Int × Gen)} {f : Gen → Option (Int × Gen)} {g : Gen}

theorem NoPointer.some {r : Int} (h : g.lastIdentType ≠ .ptr) : NoPointer (some (r, g)) := by
  intro r' g' heq
  cases heq
  exact h

theorem NoPointer.none : NoPointer none := by
  intro r g heq
  cases heq

theorem NoPointer.bind {α : Type} (o : Option α) {f : α → Option (Int × Gen)}
    (h : ∀ a, o = Option.some a → NoPointer (f a)) : NoPointer (o >>= f) := by
  cases o with
  | none => exact NoPointer.none
  | some a => exact h a rfl

theorem NoPointer.keepPos (hx : NoPointer x) (i : Nat) : NoPointer (keepPos i x) := by
  intro r g' heq
  obtain ⟨⟨r₁, g₁⟩, hcall, heq⟩ := bind_eq_some_iff.mp heq
  cases heq
  exact hx r g₁ hcall

theorem NoPointer.orFail (hx : NoPointer x) (hf : ∀ g, g.lastIdentType ≠ .ptr → NoPointer (f g)) :
    NoPointer (orFail x f) := by
  refine NoPointer.bind _ fun a ha => ?_
  obtain ⟨r, g⟩ := a
  have hg := hx r g ha
  dsimp only
  split
  · exact NoPointer.some hg
  · exact hf g hg

theorem noPointer_emitCall (hg : g.lastIdentType ≠ .ptr) (name : CString) (funcPos argSizes : Nat) :
    NoPointer (emitCall g name funcPos argSizes) := by
  have hregister : ∀ {g g' : Gen} {i : Nat}, registerExternalSymbol g name = Option.some (i, g') →
      g'.lastIdentType = g.lastIdentType := by
    intro g g' i h
    unfold registerExternalSymbol at h
    split at h
    · cases h
      rfl
    · split at h
      · cases h
        rfl
      · obtain ⟨stored, -, heq⟩ := bind_eq_some_iff.mp h
        cases heq
        rfl
  have hcleaned : ∀ {g : Gen} (r : Int) (bytes : List Byte), g.lastIdentType ≠ .ptr →
      NoPointer (Option.some (r, if argSizes > 0 then g.emit bytes else g)) := by
    intro g r bytes hg
    refine NoPointer.some ?_
    split <;> exact hg
  unfold emitCall
  dsimp only
  split
  · refine NoPointer.bind _ fun registered h => ?_
    obtain ⟨i, g₁⟩ := registered
    have hg₁ : g₁.lastIdentType ≠ .ptr := hregister h ▸ hg
    refine hcleaned 0 _ ?_
    unfold addRelocation
    split <;> exact hg₁
  · exact hcleaned 0 _ hg

variable (tokens : List Token) (tab : Symtab)

structure NeverPointer (fuel : Nat) : Prop where
  primary : ∀ g, g.lastIdentType ≠ .ptr → NoPointer (parsePrimary tokens tab fuel g)
  args : ∀ args g, g.lastIdentType ≠ .ptr → NoPointer (pushArgs tokens tab fuel args g)
  expr : ∀ lhs p g, g.lastIdentType ≠ .ptr → NoPointer (parseExpr1 tokens tab fuel lhs p g)
  climb : ∀ p g, g.lastIdentType ≠ .ptr → NoPointer (climb tokens tab fuel p g)
  higher : ∀ p g, g.lastIdentType ≠ .ptr → NoPointer (climbHigher tokens tab fuel p g)

variable {tokens tab}
variable (htypes : ∀ {x sym}, symtabLookup tab x = Option.some sym → sym.type ≠ .ptr)

include htypes

theorem noPointer_parseVariable (name : CString) (hg : g.lastIdentType ≠ .ptr) :
    NoPointer (parseVariable tokens tab name g) := by
  unfold parseVariable
  split
  · exact NoPointer.some hg
  · rename_i sym hsym
    refine NoPointer.bind _ fun next _ => ?_
    split <;> exact NoPointer.some (htypes hsym)

omit htypes in
theorem noPointer_parsePrefixed (emit : Symbol → List Byte) (hg : g.lastIdentType ≠ .ptr) :
    NoPointer (parsePrefixed tokens tab emit g) := by
  refine NoPointer.bind _ fun tok _ => ?_
  split
  · exact NoPointer.some hg
  · split <;> exact NoPointer.some hg

theorem NeverPointer.primary_succ {fuel : Nat} (h : NeverPointer tokens tab fuel)
    (hg : g.lastIdentType ≠ .ptr) : NoPointer (parsePrimary tokens tab (fuel + 1) g) := by
  refine NoPointer.bind _ fun tok _ => ?_
  cases tok.type
  case tokIdent =>
    refine NoPointer.bind _ fun next _ => ?_
    cases next.type
    case tokLparen =>
      refine NoPointer.bind _ fun scanned _ => ?_
      obtain ⟨args, behind⟩ := scanned
      cases args with
      | none => exact NoPointer.some hg
      | some args =>
        refine NoPointer.orFail (h.args _ _ hg) fun g hg => NoPointer.bind _ fun close _ => ?_
        split
        · exact noPointer_emitCall (g := g.skip 1) hg _ _ _
        · exact noPointer_emitCall hg _ _ _
    case tokLbracket =>
      dsimp only
      split
      · exact NoPointer.some hg
      · split
        · exact NoPointer.some hg
        · refine NoPointer.orFail (h.expr _ _ _ hg) fun g hg => NoPointer.bind _ fun close _ => ?_
          refine NoPointer.some ?_
          split <;> exact hg
    all_goals exact noPointer_parseVariable htypes _ hg
  case tokLparen =>
    refine NoPointer.orFail (h.expr _ _ _ hg) fun g hg => NoPointer.bind _ fun close _ => ?_
    split <;> exact NoPointer.some hg
  case tokStar | tokPlus | tokMinus | tokLognot | tokNot =>
    exact NoPointer.orFail (h.primary _ hg) fun g hg => NoPointer.some hg
  case tokAnd | tokPlusplus | tokMinusminus => exact noPointer_parsePrefixed _ hg
  all_goals exact NoPointer.some hg

theorem neverPointer (fuel : Nat) : NeverPointer tokens tab fuel := by
  induction fuel with
  | zero =>
    exact
      { primary := fun _ _ => by rw [parsePrimary]; exact NoPointer.none
        args := fun _ _ _ => by rw [pushArgs]; exact NoPointer.none
        expr := fun _ _ _ _ => by rw [parseExpr1]; exact NoPointer.none
        climb := fun _ _ _ => by rw [Tcc.climb]; exact NoPointer.none
        higher := fun _ _ _ => by rw [climbHigher]; exact NoPointer.none }
  | succ fuel ih =>
    refine
      { primary := fun _ => ih.primary_succ htypes
        args := ?_
        expr := ?_
        climb := ?_
        higher := ?_ }
    · intro args g hg
      cases args with
      | nil =>
        exact NoPointer.some hg
      | cons arg args =>
        have hexpr := ih.expr false precNone { g with pos := arg } hg
        exact NoPointer.orFail (hexpr.keepPos g.pos) fun g' hg' => ih.args _ _ hg'
    · intro lhs p g hg
      rw [parseExpr1]
      split
      · exact ih.climb _ _ hg
      · exact NoPointer.orFail (ih.primary _ hg) fun g hg => ih.climb _ _ hg
    · intro p g hg
      refine NoPointer.bind _ fun tok _ => ?_
      split
      · exact NoPointer.some hg
      · split
        · exact NoPointer.some hg
        · refine NoPointer.orFail (ih.primary _ hg) fun g hg =>
            NoPointer.orFail (ih.higher _ _ hg) fun g hg => ?_
          have happly : (applyBinary tok.type (g.emit emitPopEbx)).2.lastIdentType ≠ .ptr := by
            unfold applyBinary
            split <;> first | exact hg | (dsimp only; split <;> first | exact hg | (split <;> exact hg))
          dsimp only
          split
          · exact NoPointer.some happly
          · exact ih.climb _ _ happly
    · intro p g hg
      refine NoPointer.bind _ fun tok _ => ?_
      split
      · exact NoPointer.orFail (ih.expr _ _ _ hg) fun g hg => ih.higher _ _ hg
      · exact NoPointer.some hg

end Statics

end JexOs.Tcc
