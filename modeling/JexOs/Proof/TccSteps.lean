import JexOs.Proof.TccAppend

/-!
# Statements step by step

A relation between states that holds of each step a statement is put together from holds of what it does.
-/

namespace JexOs.Tcc

open X86 (Byte Word wordBytes)
open List Option

theorem ite_bind {α β : Type} (c : Prop) [Decidable c] (x y : Option α) (f : α → Option β) :
    (if c then x >>= f else y >>= f) = (if c then x else y) >>= f := by
  split <;> rfl

def Leads (R : Parser → Parser → Prop) (s : Parser) (result : Option Parser) : Prop :=
  ∀ s', result = some s' → R s s'

def Patching (s : Parser) (p : Nat) : Prop :=
  (s.ctrl.jzPatch + 2 ≤ p ∧ p < s.ctrl.jzPatch + 6) ∨ (s.ctrl.jmpPatch + 1 ≤ p ∧ p < s.ctrl.jmpPatch + 5)

structure PlainSteps (R : Parser → Parser → Prop) : Prop where
  trans : ∀ {s s' s'' : Parser}, R s s' → R s' s'' → R s s''
  gen : ∀ {s : Parser} {g : Gen} {bytes : List Byte}, g.out = s.gen.out ++ bytes → R s { s with gen := g }
  declare : ∀ {s s' : Parser} {name : CString} {type : SymType}, s.declare name type = some s' → R s s'

/-- The relation holds of the steps of braces and heads too. Bytes are appended, and a jump that is opened
lies in them. -/
structure Carried (R : Parser → Parser → Prop) : Prop where
  trans : ∀ {s s' s'' : Parser}, R s s' → R s' s'' → R s s''
  append : ∀ {s s' : Parser} {bytes : List Byte}, s'.gen.out = s.gen.out ++ bytes →
    s'.ctrl.jzPatch = s.ctrl.jzPatch ∨ s.gen.out.length ≤ s'.ctrl.jzPatch →
    s'.ctrl.jmpPatch = s.ctrl.jmpPatch ∨ s.gen.out.length ≤ s'.ctrl.jmpPatch ∨ s'.ctrl.jmpPatch = 0 →
    s'.stringTable = s.stringTable → s'.printPatches = s.printPatches → s'.symtab = s.symtab → R s s'
  declare : ∀ {s s' : Parser} {name : CString} {type : SymType}, s.declare name type = some s' → R s s'
  patch : ∀ {s : Parser} {p : Nat} (v : Word), (∀ q, p ≤ q → q < p + 4 → Patching s q) → R s (s.patch p v)

section Leads

variable {R : Parser → Parser → Prop} {s s₁ : Parser} {α : Type}

theorem Leads.result (h : R s s₁) : Leads R s (some s₁) := by
  rintro s' ⟨⟩
  exact h

theorem Leads.bind {x : Option α} {f : α → Option Parser} (h : ∀ a, x = some a → Leads R s (f a)) :
    Leads R s (x >>= f) := by
  intro s' hs'
  obtain ⟨a, hx, hf⟩ := bind_eq_some_iff.mp hs'
  exact h a hx s' hf

end Leads

section PlainSteps

variable {R : Parser → Parser → Prop} {tokens : List Token} {fuel : Nat} {s s₁ : Parser} {name : CString}
  (hR : PlainSteps R)

include hR

theorem PlainSteps.refl (s : Parser) : R s s := @PlainSteps.gen R hR s s.gen [] (append_nil _).symm

theorem PlainSteps.goto (s : Parser) (i : Nat) : R s (s.goto i) :=
  @PlainSteps.gen R hR s { s.gen with pos := i } [] (append_nil _).symm

theorem PlainSteps.emit (s : Parser) (bytes : List Byte) : R s (s.emit bytes) :=
  @PlainSteps.gen R hR s (s.gen.emit bytes) bytes rfl

theorem PlainSteps.emit_goto (s : Parser) (bytes : List Byte) (i : Nat) : R s ((s.emit bytes).goto i) :=
  hR.trans (hR.emit s bytes) (hR.goto _ i)

theorem PlainSteps.behind {result : Option Parser} (h : Leads R s₁ result) (h' : R s s₁) : Leads R s result :=
  fun s' hs' => hR.trans h' (h s' hs')

theorem PlainSteps.parsed {p : Nat} {r : Bool × Nat × Parser}
    (h : parseAt tokens fuel s p = some r) : R s r.2.2 := by
  obtain ⟨⟨n, g⟩, hexpr, h⟩ := bind_eq_some_iff.mp h
  cases h
  obtain ⟨bytes, hbytes, -⟩ := exprParse_appends (templates_true s.symtab) hexpr
  exact @PlainSteps.gen R hR s { g with pos := s.gen.pos } bytes hbytes

theorem PlainSteps.introduced {sym : Option Symbol}
    (h : lookupOrDeclare s name = some (sym, s₁)) : R s s₁ := by
  unfold lookupOrDeclare at h
  split at h
  · cases h
    exact hR.refl s
  · obtain ⟨s₂, hdeclare, h⟩ := bind_eq_some_iff.mp h
    cases h
    exact hR.declare hdeclare

theorem leads_parseAsm : Leads R s (parseAsm tokens s) := by
  refine .bind fun _ _ => .bind fun tok _ => .bind fun i _ => .result ?_
  split
  · exact hR.emit_goto s _ i
  · exact hR.goto s i

theorem leads_parseCall : Leads R s (parseCall tokens name s) := by
  unfold parseCall
  dsimp only
  repeat' first
    | exact .result (hR.goto s _)
    | exact .result (hR.emit_goto s _ _)
    | refine .bind fun _ _ => ?_
    | split

theorem PlainSteps.declared {type : SymType} {j : Nat} {r : Nat × Parser}
    (h : declareName tokens type name j s = some r) : R s r.2 := by
  obtain ⟨s₂, hdeclare, h⟩ := bind_eq_some_iff.mp h
  obtain ⟨next, -, h⟩ := bind_eq_some_iff.mp h
  split at h
  · obtain ⟨tok, -, h⟩ := bind_eq_some_iff.mp h
    cases h
    exact hR.trans (hR.declare hdeclare) (hR.emit s₂ _)
  · cases h
    exact hR.declare hdeclare

theorem leads_declareLoop (type : SymType) (k j : Nat)
    (s : Parser) : Leads R s (declareLoop tokens type k j s) := by
  induction k generalizing j s with
  | zero => exact fun s' h => nomatch h
  | succ k ih =>
    refine .bind fun tok _ => ?_
    split
    · exact .result (hR.refl s)
    · split
      · exact .bind fun r hname => .bind fun p _ => hR.behind (ih p r.2) (hR.declared hname)
      · exact .bind fun r hr => .bind fun p _ => by cases hr; exact ih p s

theorem leads_parseDeclaration {type : SymType} : Leads R s (parseDeclaration tokens fuel type s) :=
  .bind fun s₁ h => .bind fun i _ =>
    hR.behind (.result (hR.goto s₁ i)) (leads_declareLoop hR _ _ _ _ s₁ h)

theorem leads_parseCompound {op : List Byte} : Leads R s (parseCompound tokens fuel name op s) := by
  unfold parseCompound
  split
  · exact .result (hR.goto s _)
  · refine .bind fun ⟨done, p, s₁⟩ hparse => hR.behind ?_ (hR.parsed hparse)
    dsimp only
    split
    · exact .bind fun i _ => .result (hR.emit_goto s₁ _ i)
    · exact .result (hR.goto s₁ _)

theorem leads_parseAssignment : Leads R s (parseAssignment tokens fuel name s) := by
  refine .bind fun ⟨sym, s₁⟩ hsym => hR.behind ?_ (hR.introduced hsym)
  cases sym with
  | none => exact .bind fun i _ => .result (hR.goto s₁ i)
  | some sym =>
    refine .bind fun rhs _ => ?_
    dsimp only
    rw [ite_bind]
    refine .bind fun called _ => ?_
    split
    · refine .bind fun next _ => ?_
      split
      · exact .bind fun i _ => .result (hR.emit_goto s₁ _ i)
      · exact .bind fun i _ => .result (hR.goto s₁ i)
    · refine .bind fun ⟨done, p, s₂⟩ hparse => hR.behind ?_ (hR.parsed hparse)
      split
      · exact .bind fun i _ => .result (hR.emit_goto s₂ _ i)
      · exact .bind fun i _ => .result (hR.goto s₂ i)

theorem leads_parseNamed : Leads R s (parseNamed tokens fuel name s) := by
  refine .bind fun next _ => ?_
  split
  · exact leads_parseCompound hR
  · split
    · exact leads_parseAssignment hR
    · split
      · exact leads_parseCall hR
      · exact .result (hR.goto s _)

theorem leads_parseForIncrement : Leads R s (parseForIncrement tokens fuel s) := by
  unfold parseForIncrement
  dsimp only
  split
  · exact .result (hR.refl s)
  · refine .bind fun tok _ => ?_
    split
    · exact .result (hR.refl s)
    · refine .bind fun next _ => ?_
      split
      · split
        · exact .result (hR.emit s _)
        · exact .result (hR.refl s)
      · split
        · refine .bind fun ⟨done, p, s₁⟩ hparse => hR.behind ?_ (hR.parsed hparse)
          split
          · cases done with
            | true => exact .result (hR.emit s₁ _)
            | false => exact .result (hR.refl s₁)
          · exact .result (hR.refl s₁)
        · exact .result (hR.refl s)

theorem leads_parseForInit : Leads R s (parseForInit tokens fuel s) := by
  unfold parseForInit
  refine .bind fun tok _ => ?_
  split
  · exact .result (hR.goto s _)
  · refine .bind fun assigns _ => ?_
    split
    · refine .bind fun ⟨sym, s₁⟩ hsym => hR.behind ?_ (hR.introduced hsym)
      cases sym with
      | none => exact .bind fun i _ => .result (hR.goto s₁ i)
      | some sym =>
        refine .bind fun ⟨done, p, s₂⟩ hparse => hR.behind ?_ (hR.parsed hparse)
        refine .bind fun i _ => .result ?_
        cases done with
        | true => exact hR.emit_goto s₂ _ i
        | false => exact hR.goto s₂ i
    · exact .bind fun i _ => .result (hR.goto s i)

variable (hprint : ∀ (s : Parser) (text : CString), R s (emitPrint s text))

include hprint

theorem PlainSteps.emitLiteral (s : Parser) (text : CString) : R s (emitLiteral s text) := by
  unfold Tcc.emitLiteral
  split
  · exact hR.refl s
  · exact hprint s text

theorem PlainSteps.emitStringArg (s : Parser) (tok : Token) : R s (emitStringArg s tok) := by
  unfold Tcc.emitStringArg
  split
  · exact hprint s tok.str
  · exact hR.emit s _
  · exact hR.refl s

theorem leads_formatLoop (first : Nat) (format : CString) (argIdx : Nat) (text : CString) (s : Parser) :
    Leads R s (formatLoop tokens first format argIdx text s) := by
  have hliteral := hR.emitLiteral hprint
  fun_induction formatLoop tokens first format argIdx text s with
  | case1 => exact .result (hliteral _ _)
  | case2 => exact .result (hliteral _ _)
  | case3 _ _ _ _ _ ih => exact hR.behind (hR.behind ih (hR.emit _ _)) (hliteral _ _)
  | case4 _ _ _ _ _ _ _ _ _ ih =>
    exact .bind fun _ _ => .bind fun tok _ =>
      hR.behind (hR.behind (ih tok) (hR.emit _ _)) (hliteral _ _)
  | case5 _ _ _ _ _ _ _ ih =>
    exact .bind fun _ _ => .bind fun tok _ =>
      hR.behind (hR.behind (ih tok) (hR.emitStringArg hprint _ tok)) (hliteral _ _)
  | case6 _ _ _ _ _ _ _ _ _ ih => exact hR.behind ih (hliteral _ _)
  | case7 _ _ _ _ _ _ _ ih => exact ih

theorem leads_parsePrint {format : CString} : Leads R s (parsePrint tokens format s) :=
  .bind fun s₁ h => .bind fun i _ =>
    hR.behind (.result (hR.goto s₁ i)) (leads_formatLoop hR hprint _ _ _ _ _ s₁ h)

end PlainSteps

section Carried

variable {R : Parser → Parser → Prop} {tokens : List Token} {fuel : Nat} {s s₁ : Parser} (hR : Carried R)

include hR

theorem Carried.plain : PlainSteps R where
  trans := hR.trans
  gen h := hR.append h (.inl rfl) (.inl rfl) rfl rfl rfl
  declare := hR.declare

theorem Carried.same (hout : s₁.gen.out = s.gen.out) (hjz : s₁.ctrl.jzPatch = s.ctrl.jzPatch)
    (hjmp : s₁.ctrl.jmpPatch = s.ctrl.jmpPatch) (hstrings : s₁.stringTable = s.stringTable)
    (hprints : s₁.printPatches = s.printPatches) (htab : s₁.symtab = s.symtab) : R s s₁ :=
  hR.append (hout.trans (append_nil _).symm) (.inl hjz) (.inl hjmp) hstrings hprints htab

theorem Carried.patchJz (s : Parser) (v : Word) : R s (s.patch (s.ctrl.jzPatch + 2) v) :=
  hR.patch v fun q hlow hhigh => .inl ⟨hlow, by omega⟩

theorem Carried.patchJmp (s : Parser) (v : Word) : R s (s.patch (s.ctrl.jmpPatch + 1) v) :=
  hR.patch v fun q hlow hhigh => .inr ⟨hlow, by omega⟩

theorem leads_parseReturn : Leads R s (parseReturn tokens s) := by
  refine .bind fun tok _ => ?_
  split <;> exact .result (hR.same rfl rfl rfl rfl rfl rfl)

theorem leads_closeThen : Leads R s (closeThen tokens s) := by
  have hpatched := hR.patchJz s (relative s.gen.out.length (s.ctrl.jzPatch + 6))
  unfold closeThen
  refine .bind fun next _ => hR.plain.behind ?_ hpatched
  generalize s.patch (s.ctrl.jzPatch + 2) (relative s.gen.out.length (s.ctrl.jzPatch + 6)) = s₁
  split
  · refine .bind fun behind _ => ?_
    split <;> exact .result (hR.append rfl (.inl rfl) (.inr (.inl le_rfl)) rfl rfl rfl)
  · exact .result (hR.same rfl rfl rfl rfl rfl rfl)

theorem Carried.closeElse (s : Parser) : R s (closeElse s) := by
  have hclose : ∀ s₁ : Parser, R s₁ ({ s₁ with
      ctrl := { s₁.ctrl with type := .none, elseState := 0, jmpPatch := 0 }
      braceDepth := s₁.braceDepth - 1 }.skip 1) := fun s₁ =>
    hR.append (append_nil _).symm (.inl rfl) (.inr (.inr rfl)) rfl rfl rfl
  unfold Tcc.closeElse
  dsimp only
  split
  · exact hR.trans (hR.patchJmp s _) (hclose _)
  · exact hclose s

theorem leads_closeLoop : Leads R s (closeLoop tokens fuel s) := by
  have hclose : ∀ s₁ : Parser, Leads R s₁ (some ({ s₁ with
      ctrl := { s₁.ctrl with type := .none }
      braceDepth := s₁.braceDepth - 1 }.skip 1)) := fun s₁ => .result (hR.same rfl rfl rfl rfl rfl rfl)
  have hincrement : Leads R s (if s.ctrl.type = .forLoop then parseForIncrement tokens fuel s
      else some s) := by
    split
    · exact leads_parseForIncrement hR.plain
    · exact .result (hR.plain.refl s)
  have hjump : ∀ s₁, R s₁ (emitLoopJump s₁) := fun s₁ => hR.plain.emit s₁ _
  unfold closeLoop
  rw [ite_bind]
  refine .bind fun s₁ h => hR.plain.behind ?_ (hR.trans (hincrement s₁ h) (hjump s₁))
  dsimp only
  split
  · exact hR.plain.behind (hclose _) (hR.patchJz (emitLoopJump s₁) _)
  · exact hclose _

theorem leads_closeBrace : Leads R s (closeBrace tokens fuel s) := by
  unfold closeBrace
  dsimp only
  split
  · exact leads_closeThen hR
  · split
    · exact .result (hR.closeElse s)
    · split
      · exact leads_closeLoop hR
      · exact .result (hR.same rfl rfl rfl rfl rfl rfl)

theorem Carried.parseCondition {isFor done : Bool}
    (h : parseCondition tokens fuel isFor s = some (done, s₁)) : R s s₁ := by
  have hrefl := hR.plain.refl
  unfold Tcc.parseCondition at h
  obtain ⟨type, -, h⟩ := bind_eq_some_iff.mp h
  split at h
  · cases h
    exact hR.same rfl rfl rfl rfl rfl rfl
  · split at h
    · cases h
      exact hrefl s
    · obtain ⟨⟨parsed, p, s₂⟩, hparse, h⟩ := bind_eq_some_iff.mp h
      have htop : R s { s with ctrl := { s.ctrl with loopTop := s.gen.out.length } } :=
        hR.same rfl rfl rfl rfl rfl rfl
      refine hR.trans (hR.trans htop (hR.plain.parsed hparse)) ?_
      dsimp only at h
      split at h
      · cases h
        exact hrefl s₁
      · obtain ⟨next, -, h⟩ := bind_eq_some_iff.mp h
        -- the jump is opened behind the test
        have htest : ∀ i j : Nat, R s₂ ({ ((s₂.goto i).goto j).emit [0x85, 0xC0] with
            ctrl := { s₂.ctrl with jzPatch := (s₂.emit [0x85, 0xC0]).gen.out.length } }.emit
              (0x0F :: 0x84 :: wordBytes 0)) := by
          intro i j
          have htest : (s₂.emit [0x85, 0xC0]).gen.out.length = s₂.gen.out.length + 2 := length_append
          refine hR.append (append_assoc _ _ _) (.inr ?_) (.inl rfl) rfl rfl rfl
          exact (Nat.le_add_right _ 2).trans (htest.symm.le)
        split at h
        · cases h
          cases isFor with
          | true => exact hrefl s₂
          | false => exact hR.same rfl rfl rfl rfl rfl rfl
        · cases h
          cases isFor with
          | true => exact htest s₂.gen.pos s₂.gen.pos
          | false => exact htest p (p + 1)

theorem leads_parseForClauses : Leads R s (parseForClauses tokens s) := by
  unfold parseForClauses
  repeat' first
    | exact .result (hR.same rfl rfl rfl rfl rfl rfl)
    | refine .bind fun _ _ => ?_
    | split

theorem leads_parseControl {type : CtrlType} : Leads R s (parseControl tokens fuel type s) := by
  have hhead : R s ({ s with ctrl := { s.ctrl with loopTop := s.gen.out.length } }.skip 1) :=
    hR.same rfl rfl rfl rfl rfl rfl
  unfold parseControl
  refine .bind fun next _ => hR.plain.behind ?_ hhead
  generalize ({ s with ctrl := { s.ctrl with loopTop := s.gen.out.length } }.skip 1) = s
  split
  · exact .result (hR.plain.refl s)
  · have hinit : Leads R s (if decide (type = .forLoop) then parseForInit tokens fuel (s.skip 1)
        else some (s.skip 1)) := by
      split
      · exact hR.plain.behind (leads_parseForInit hR.plain) (hR.plain.goto s _)
      · exact .result (hR.plain.goto s _)
    rw [ite_bind]
    refine .bind fun s₁ h => hR.plain.behind ?_ (hinit s₁ h)
    refine .bind fun ⟨done, s₂⟩ hcond => hR.plain.behind ?_ (hR.parseCondition hcond)
    dsimp only
    split
    · exact .result (hR.plain.refl s₂)
    · have hclauses : Leads R s₂ (if decide (type = .forLoop) then parseForClauses tokens s₂
          else some s₂) := by
        split
        · exact leads_parseForClauses hR
        · exact .result (hR.plain.refl s₂)
      rw [ite_bind]
      refine .bind fun s₃ h => hR.plain.behind ?_ (hclauses s₃ h)
      exact .result (hR.same rfl rfl rfl rfl rfl rfl)

end Carried

end JexOs.Tcc
