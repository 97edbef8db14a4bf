import JexOs.Tcc

/-!
# Expressions only append

Whatever the tokens are and whether it succeeds, the parser of expressions leaves the output as it is and writes
behind it.
-/

namespace JexOs.Tcc

open X86 (Byte Word wordBytes)
open List

structure Templates (tab : Symtab) (P : List Byte → Prop) : Prop where
  nil : P []
  append : ∀ {bytes bytes'}, P bytes → P bytes' → P (bytes ++ bytes')
  imm : ∀ v, P (emitMovEaxImm v)
  load : ∀ {x sym}, symtabLookup tab x = some sym → P (emitLoad sym)
  postInc : ∀ {x sym}, symtabLookup tab x = some sym →
    P (emitPostfix sym (emitAddEaxImm 1) (emitIncrement sym))
  postDec : ∀ {x sym}, symtabLookup tab x = some sym →
    P (emitPostfix sym emitSubEaxOne (emitDecrement sym))
  preInc : ∀ {x sym}, symtabLookup tab x = some sym →
    P (emitPrefix sym (emitAddEaxImm 1) (emitIncrement sym))
  preDec : ∀ {x sym}, symtabLookup tab x = some sym →
    P (emitPrefix sym emitSubEaxOne (emitDecrement sym))
  address : ∀ {x sym}, symtabLookup tab x = some sym → P (emitLeaEaxEbp sym.offset)
  element : ∀ {x sym}, symtabLookup tab x = some sym → 0 < sym.arraySize → P (emitElement sym)
  deref : P emitMovEaxMemEax
  unary : ∀ type, P (emitUnary type)
  push : P emitPushEax
  pop : P emitPopEbx
  binary : ∀ op g, ∃ bytes, (applyBinary op g).2.out = g.out ++ bytes ∧ P bytes
  call : ∀ v, P (0xE8 :: wordBytes v)
  clean : ∀ v, P (0x81 :: 0xC4 :: wordBytes v)

def Appends (P : List Byte → Prop) (g : Gen) (call : Option (Int × Gen)) : Prop :=
  ∀ r g', call = some (r, g') → ∃ bytes, g'.out = g.out ++ bytes ∧ P bytes

section Appends

variable {tab : Symtab} {P : List Byte → Prop} {g g' : Gen} {bytes : List Byte}

theorem Appends.some {r : Int} (hout : g'.out = g.out ++ bytes)
    (h : P bytes) : Appends P g (some (r, g')) := by
  intro r' g'' heq
  cases heq
  exact ⟨bytes, hout, h⟩

theorem Appends.same {r : Int} (hP : Templates tab P) (hout : g'.out = g.out) :
    Appends P g (.some (r, g')) := Appends.some (by rw [hout, append_nil]) hP.nil

theorem Appends.bind {α : Type} (x : Option α) {f : α → Option (Int × Gen)}
    (h : ∀ a, x = .some a → Appends P g (f a)) : Appends P g (x >>= f) := by
  cases x with
  | none =>
    intro r g' heq
    cases heq
  | some a => exact h a rfl

theorem Appends.behind {call : Option (Int × Gen)} (hP : Templates tab P)
    (hout : g'.out = g.out ++ bytes) (hbytes : P bytes) (h : Appends P g' call) : Appends P g call := by
  intro r g'' heq
  obtain ⟨bytes', hout', hbytes'⟩ := h r g'' heq
  exact ⟨bytes ++ bytes', by rw [hout', hout, append_assoc], hP.append hbytes hbytes'⟩

theorem Appends.orFail {x : Option (Int × Gen)} {f : Gen → Option (Int × Gen)}
    (hP : Templates tab P) (hx : Appends P g x) (hf : ∀ g', Appends P g' (f g')) :
    Appends P g (orFail x f) := by
  refine Appends.bind _ fun ⟨r₁, g₁⟩ hx₁ => ?_
  obtain ⟨bytes, hout, hbytes⟩ := hx r₁ g₁ hx₁
  dsimp only
  split
  · exact Appends.some hout hbytes
  · exact Appends.behind hP hout hbytes (hf g₁)

theorem Appends.keepPos {call : Option (Int × Gen)} (h : Appends P g call) (i : Nat) :
    Appends P g (keepPos i call) := by
  intro r g' heq
  obtain ⟨⟨r₁, g₁⟩, hcall, heq⟩ := Option.bind_eq_some_iff.mp heq
  cases heq
  exact h r g₁ hcall

end Appends

theorem registerExternalSymbol_out {g g' : Gen} {name : CString} {idx : Nat}
    (h : registerExternalSymbol g name = some (idx, g')) : g'.out = g.out := by
  unfold registerExternalSymbol at h
  split at h
  · cases h
    rfl
  · split at h
    · cases h
      rfl
    · cases hname : strncpy name 31 with
      | none =>
        rw [hname] at h
        cases h
      | some stored =>
        rw [hname] at h
        cases h
        rfl

theorem addRelocation_out (g : Gen) (offset type idx : Nat) :
    (addRelocation g offset type idx).out = g.out := by
  unfold addRelocation
  split <;> rfl

section Parser

variable {tokens : List Token} {tab : Symtab} {P : List Byte → Prop}

theorem appends_emitCall (hP : Templates tab P) (g : Gen) (name : CString) (funcPos argSizes : Nat) :
    Appends P g (emitCall g name funcPos argSizes) := by
  have hclean : ∀ g₁ v, g₁.out = g.out ++ (0xE8 :: wordBytes v) →
      Appends P g (some (0, if argSizes > 0 then
        g₁.emit (0x81 :: 0xC4 :: wordBytes (BitVec.ofNat 32 argSizes)) else g₁)) := by
    intro g₁ v hout
    refine Appends.behind hP hout (hP.call v) ?_
    split
    · exact Appends.some rfl (hP.clean _)
    · exact Appends.same hP rfl
  unfold emitCall
  dsimp only
  split
  · refine Appends.bind _ fun ⟨idx, g₁⟩ hregister => hclean _ 0 ?_
    rw [addRelocation_out, registerExternalSymbol_out hregister]
    rfl
  · exact hclean _ _ rfl

theorem appends_parseVariable (hP : Templates tab P) (name : CString) (g : Gen) :
    Appends P g (parseVariable tokens tab name g) := by
  unfold parseVariable
  cases hsym : symtabLookup tab name with
  | none => exact Appends.same hP rfl
  | some sym =>
    refine Appends.bind _ fun next _ => ?_
    split
    · exact Appends.some (append_assoc _ _ _) (hP.append (hP.load hsym) (hP.postInc hsym))
    · exact Appends.some (append_assoc _ _ _) (hP.append (hP.load hsym) (hP.postDec hsym))
    · exact Appends.some rfl (hP.load hsym)

theorem appends_parsePrefixed (hP : Templates tab P) {emit : Symbol → List Byte}
    (hemit : ∀ {x sym}, symtabLookup tab x = some sym → P (emit sym)) (g : Gen) :
    Appends P g (parsePrefixed tokens tab emit g) := by
  refine Appends.bind _ fun tok _ => ?_
  split
  · exact Appends.same hP rfl
  · cases hsym : symtabLookup tab tok.str with
    | none => exact Appends.same hP rfl
    | some sym => exact Appends.some rfl (hemit hsym)

variable (tokens tab P)

structure Appending (fuel : Nat) : Prop where
  primary : ∀ g, Appends P g (parsePrimary tokens tab fuel g)
  args : ∀ args g, Appends P g (pushArgs tokens tab fuel args g)
  expr : ∀ lhs p g, Appends P g (parseExpr1 tokens tab fuel lhs p g)
  climb : ∀ p g, Appends P g (climb tokens tab fuel p g)
  higher : ∀ p g, Appends P g (climbHigher tokens tab fuel p g)

variable {tokens tab P}

theorem Appending.primary_succ {fuel : Nat} (h : Appending tokens tab P fuel) (hP : Templates tab P)
    (g : Gen) : Appends P g (parsePrimary tokens tab (fuel + 1) g) := by
  refine Appends.bind _ fun tok _ => ?_
  split
  · exact Appends.some rfl (hP.imm _)
  · refine Appends.bind _ fun next _ => ?_
    split
    · refine Appends.bind _ fun scanned _ => ?_
      obtain ⟨args, behind⟩ := scanned
      cases args with
      | none => exact Appends.same hP rfl
      | some args =>
        refine Appends.orFail hP (h.args _ { g with pos := behind }) fun g' => ?_
        refine Appends.bind _ fun close _ => ?_
        split
        · exact appends_emitCall hP (g'.skip 1) _ _ _
        · exact appends_emitCall hP _ _ _ _
    · cases hsym : symtabLookup tab tok.str with
      | none => exact Appends.same hP rfl
      | some sym =>
        dsimp only
        split
        · exact Appends.same hP rfl
        · refine Appends.orFail hP (h.expr _ _ (g.skip 2)) fun g' => ?_
          refine Appends.bind _ fun close _ => ?_
          have helement := hP.element hsym (by omega)
          split
          · exact Appends.some rfl helement
          · exact Appends.some rfl helement
    · exact appends_parseVariable hP _ _
  · refine Appends.orFail hP (h.expr _ _ (g.skip 1)) fun g' => ?_
    refine Appends.bind _ fun close _ => ?_
    split
    · exact Appends.same hP rfl
    · exact Appends.same hP rfl
  · exact appends_parsePrefixed hP hP.address (g.skip 1)
  · exact appends_parsePrefixed hP hP.preInc (g.skip 1)
  · exact appends_parsePrefixed hP hP.preDec (g.skip 1)
  · exact Appends.orFail hP (h.primary (g.skip 1)) fun g' => Appends.some rfl hP.deref
  all_goals
    first
    | exact Appends.same hP rfl
    | exact Appends.orFail hP (h.primary (g.skip 1)) fun g' => Appends.some rfl (hP.unary _)

theorem appending (hP : Templates tab P) (fuel : Nat) : Appending tokens tab P fuel := by
  induction fuel with
  | zero =>
    have hnone : ∀ g, Appends P g none := by
      intro g r g' heq
      cases heq
    exact
      { primary := fun g => by rw [parsePrimary]; exact hnone g
        args := fun _ g => by rw [pushArgs]; exact hnone g
        expr := fun _ _ g => by rw [parseExpr1]; exact hnone g
        climb := fun _ g => by rw [Tcc.climb]; exact hnone g
        higher := fun _ g => by rw [climbHigher]; exact hnone g }
  | succ fuel ih =>
    refine
      { primary := ih.primary_succ hP
        args := ?_
        expr := ?_
        climb := ?_
        higher := ?_ }
    · intro args g
      cases args with
      | nil => exact Appends.same hP rfl
      | cons arg args =>
        have hexpr : Appends P g (parseExpr1 tokens tab fuel false precNone { g with pos := arg }) :=
          ih.expr _ _ { g with pos := arg }
        refine Appends.orFail hP (hexpr.keepPos g.pos) fun g' => ?_
        exact Appends.behind hP rfl hP.push (ih.args args (g'.emit emitPushEax))
    · intro lhs p g
      unfold parseExpr1
      split
      · exact ih.climb _ _
      · exact Appends.orFail hP (ih.primary _) fun g' => ih.climb _ _
    · intro p g
      refine Appends.bind _ fun tok _ => ?_
      split
      · exact Appends.same hP rfl
      · split
        · exact Appends.same hP rfl
        · refine Appends.behind hP rfl hP.push (Appends.orFail hP (ih.primary _) ?_)
          refine fun g' => Appends.orFail hP (ih.higher _ _) fun g' => ?_
          obtain ⟨bytes, hout, hbytes⟩ := hP.binary tok.type (g'.emit emitPopEbx)
          have hpop : (g'.emit emitPopEbx).out = g'.out ++ emitPopEbx := rfl
          refine Appends.behind hP hpop hP.pop ?_
          dsimp only
          split
          · exact Appends.some hout hbytes
          · exact Appends.behind hP hout hbytes (ih.climb _ _)
    · intro p g
      refine Appends.bind _ fun tok _ => ?_
      split
      · exact Appends.orFail hP (ih.expr _ _ _) fun g' => ih.higher _ _
      · exact Appends.same hP rfl

theorem exprParse_appends (hP : Templates tab P) {fuel : Nat} {g g' : Gen} {r : Int}
    (h : exprParse tokens tab fuel g = some (r, g')) :
    ∃ bytes, g'.out = g.out ++ bytes ∧ P bytes := (appending hP fuel).expr _ _ g r g' h

end Parser

theorem applyBinary_out (op : TokenType) (g : Gen) : ∃ bytes, (applyBinary op g).2.out = g.out ++ bytes := by
  unfold applyBinary
  split
  case h_3 =>
    split
    · split
      · exact ⟨_, append_assoc _ _ _⟩
      · exact ⟨_, rfl⟩
    · exact ⟨_, rfl⟩
  case h_16 => exact ⟨[], (append_nil _).symm⟩
  all_goals exact ⟨_, rfl⟩

theorem templates_true (tab : Symtab) : Templates tab fun _ => True := by
  refine
    { nil := trivial
      append := fun _ _ => trivial
      imm := fun _ => trivial
      load := fun _ => trivial
      postInc := fun _ => trivial
      postDec := fun _ => trivial
      preInc := fun _ => trivial
      preDec := fun _ => trivial
      address := fun _ => trivial
      element := fun _ _ => trivial
      deref := trivial
      unary := fun _ => trivial
      push := trivial
      pop := trivial
      binary := fun op g => ?_
      call := fun _ => trivial
      clean := fun _ => trivial }
  obtain ⟨bytes, hout⟩ := applyBinary_out op g
  exact ⟨bytes, hout, trivial⟩

end JexOs.Tcc
