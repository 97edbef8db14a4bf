import JexOs.Proof.TccFlow
import JexOs.Proof.TccExec

/-!
# `if` with `else`

The `jz` of an `if` is patched before the jump over the other body is written, so it goes to that jump.
-/

namespace JexOs.Tcc

open X86 List

/-- The code of the condition, of the body and of the other body, with the jumps in between. -/
def ifElseCode (test body other : List Byte) : List Byte :=
  test ++ (emitTest ++ (emitJz (BitVec.ofNat 32 body.length) ++
    (body ++ (emitJmp (BitVec.ofNat 32 other.length) ++ other))))

theorem length_ifElseCode (test body other : List Byte) :
    (ifElseCode test body other).length = test.length + 8 + body.length + 5 + other.length := by
  unfold ifElseCode
  simp only [length_append, length_emitJz, length_emitJmp]
  have htest : emitTest.length = 2 := rfl
  omega

section Machine

variable {p : Platform} {code : Word → Byte} {a : Word} {c c₁ c' : Cpu} {test body other : List Byte}

variable (hcode : CodeAt code a (ifElseCode test body other))

include hcode

theorem codeAt_ifElse : CodeAt code (a + BitVec.ofNat 32 test.length)
        (emitTest ++ emitJz (BitVec.ofNat 32 body.length)) ∧
      CodeAt code (a + BitVec.ofNat 32 (test.length + 8 + body.length))
      (emitJmp (BitVec.ofNat 32 other.length)) := by
  have hrest := hcode.right
  rw [← append_assoc] at hrest
  refine ⟨hrest.left, ?_⟩
  have hjmp := hrest.right.right.left
  have hjump : (emitTest ++ emitJz (BitVec.ofNat 32 body.length)).length = 8 := rfl
  rw [add_ofNat_ofNat, add_ofNat_ofNat, hjump, ← Nat.add_assoc] at hjmp
  exact hjmp

theorem ifElse_nonzero (hsize : (ifElseCode test body other).length < 2 ^ 32)
    (htest : Block p code a test.length c c₁) (hne : c₁.regs .eax ≠ 0)
    (hbody : Block p code (a + BitVec.ofNat 32 (test.length + 8)) body.length (tested c₁) c') :
    Block p code a (ifElseCode test body other).length c c' := by
  obtain ⟨hjz, hjmp⟩ := codeAt_ifElse hcode
  rw [length_ifElseCode] at hsize ⊢
  refine Departs.through htest (fun hb => hb.trans_le (by omega)) ?_
  refine departs_test hjz (fun k hk => ?_) ?_
  · rw [add_ofNat_ofNat]
    exact within_at (by omega) (by omega)
  rw [if_neg hne, add_ofNat_ofNat]
  refine Block.through (k := test.length + 8) (m := body.length) hbody
    (fun hb => within_part hb (by omega) (by omega)) ?_
  have hin : X86.Within a (test.length + 8 + body.length + 5 + other.length)
      (a + BitVec.ofNat 32 (test.length + 8 + body.length)) := within_at (by omega) (by omega)
  refine departs_jmp hjmp hin ?_
  rw [add_ofNat_ofNat, add_ofNat_ofNat, ← Nat.add_assoc]
  exact Departs.out (not_within_at (by omega) (by omega))

theorem ifElse_zero (hsize : (ifElseCode test body other).length < 2 ^ 32)
    (htest : Block p code a test.length c c₁)
    (hzero : c₁.regs .eax = 0) : Block p code a (ifElseCode test body other).length c (tested c₁) := by
  obtain ⟨hjz, hjmp⟩ := codeAt_ifElse hcode
  rw [length_ifElseCode] at hsize ⊢
  refine Departs.through htest (fun hb => hb.trans_le (by omega)) ?_
  refine departs_test hjz (fun k hk => ?_) ?_
  · rw [add_ofNat_ofNat]
    exact within_at (by omega) (by omega)
  rw [if_pos hzero, add_ofNat_ofNat, add_ofNat_ofNat, ← Nat.add_assoc]
  have hin : X86.Within a (test.length + 8 + body.length + 5 + other.length)
      (a + BitVec.ofNat 32 (test.length + 8 + body.length)) := within_at (by omega) (by omega)
  refine departs_jmp hjmp hin ?_
  rw [add_ofNat_ofNat, add_ofNat_ofNat, ← Nat.add_assoc]
  exact Departs.out (not_within_at (by omega) (by omega))

end Machine

/-- Statements without a body of their own, or an `if` with `else`. -/
inductive Statement where
  | plain (bytes : List Byte)
  | ifElse (test body other : List Byte)
deriving DecidableEq, Repr

def Statement.code : Statement → List Byte
  | .plain bytes => bytes
  | .ifElse test body other => ifElseCode test body other

def statementsCode (xs : List Statement) : List Byte := xs.flatMap Statement.code

/-- What the statements mean, of the code of their parts: one of the two bodies runs. -/
inductive Means (p : Platform) (code : Word → Byte) (a : Word) : Statement → Cpu → Cpu → Prop where
  | plain {bytes : List Byte} {c c' : Cpu} (h : Block p code a bytes.length c c') :
      Means p code a (.plain bytes) c c'
  | body {test body other : List Byte} {c c₁ c' : Cpu} (htest : Block p code a test.length c c₁)
      (hne : c₁.regs .eax ≠ 0)
      (hbody : Block p code (a + BitVec.ofNat 32 (test.length + 8)) body.length (tested c₁) c') :
      Means p code a (.ifElse test body other) c c'
  | other {test body other : List Byte} {c c₁ c' : Cpu} (htest : Block p code a test.length c c₁)
      (hzero : c₁.regs .eax = 0)
      (hother : Block p code (a + BitVec.ofNat 32 (test.length + 8 + body.length + 5)) other.length
        (tested c₁) c') :
      Means p code a (.ifElse test body other) c c'

inductive MeansAll (p : Platform) (code : Word → Byte) : Word → List Statement → Cpu → Cpu → Prop where
  | nil {a : Word} {c : Cpu} : MeansAll p code a [] c c
  | cons {a : Word} {x : Statement} {xs : List Statement} {c c₁ c' : Cpu} (hfirst : Means p code a x c c₁)
      (hrest : MeansAll p code (a + BitVec.ofNat 32 x.code.length) xs c₁ c') :
      MeansAll p code a (x :: xs) c c'

/-- At every statement that the statements come to, the code comes to it too, in the same state. -/
def ComesAlong (p : Platform) (code : Word → Byte) (a : Word) (xs : List Statement) (c : Cpu) : Prop :=
  ∀ n c', MeansAll p code a (xs.take n) c c' → Block p code a (statementsCode (xs.take n)).length c c'

/-- Wherever the statements come to an `if` whose condition is zero, the other body does nothing. -/
def OthersIdle (p : Platform) (code : Word → Byte) (a : Word) (xs : List Statement) (c : Cpu) : Prop :=
  ∀ n test body other c' c₁ c₂, xs[n]? = some (.ifElse test body other) →
    MeansAll p code a (xs.take n) c c' →
    Block p code (a + BitVec.ofNat 32 (statementsCode (xs.take n)).length) test.length c' c₁ →
    c₁.regs .eax = 0 →
    Block p code (a + BitVec.ofNat 32 (statementsCode (xs.take n)).length +
      BitVec.ofNat 32 (test.length + 8 + body.length + 5)) other.length (tested c₁) c₂ →
    c₂ = tested c₁

section Statements

variable {p : Platform} {code : Word → Byte} {a : Word} {c c₁ c' : Cpu} {x : Statement}
  {xs ys : List Statement}

theorem statementsCode_append (xs ys : List Statement) :
    statementsCode (xs ++ ys) = statementsCode xs ++ statementsCode ys := flatMap_append

theorem meansAll_append : MeansAll p code a (xs ++ ys) c c' ↔ ∃ c₁, MeansAll p code a xs c c₁ ∧
      MeansAll p code (a + BitVec.ofNat 32 (statementsCode xs).length) ys c₁ c' := by
  induction xs generalizing a c with
  | nil =>
    have hstart : a + BitVec.ofNat 32 (statementsCode []).length = a := BitVec.add_zero a
    rw [hstart]
    constructor
    · exact fun h => ⟨c, MeansAll.nil, h⟩
    · rintro ⟨c₁, hnil, h⟩
      cases hnil
      exact h
  | cons x xs ih =>
    have hlength : (statementsCode (x :: xs)).length = x.code.length + (statementsCode xs).length :=
      length_append
    rw [hlength, ← add_ofNat_ofNat]
    constructor
    · intro h
      cases h with
      | cons hfirst hrest =>
        obtain ⟨c₂, hxs, hys⟩ := ih.mp hrest
        exact ⟨c₂, MeansAll.cons hfirst hxs, hys⟩
    · rintro ⟨c₂, h, hys⟩
      cases h with
      | cons hfirst hxs => exact MeansAll.cons hfirst (ih.mpr ⟨c₂, hxs, hys⟩)

theorem take_succ_eq {n : Nat} (h : xs[n]? = some x) : xs.take (n + 1) = xs.take n ++ [x] := by
  rw [take_add_one, h]
  rfl

theorem codeAt_statement {n : Nat} (hcode : CodeAt code a (statementsCode xs)) (h : xs[n]? = some x) :
    CodeAt code (a + BitVec.ofNat 32 (statementsCode (xs.take n)).length) x.code ∧
      (statementsCode (xs.take (n + 1))).length = (statementsCode (xs.take n)).length + x.code.length ∧
      (statementsCode (xs.take (n + 1))).length ≤ (statementsCode xs).length := by
  have htake := take_succ_eq h
  have hone : statementsCode [x] = x.code := append_nil _
  have hfirst : statementsCode (xs.take (n + 1)) = statementsCode (xs.take n) ++ x.code := by
    rw [htake, statementsCode_append, hone]
  have hwhole : statementsCode xs = statementsCode (xs.take (n + 1)) ++ statementsCode (xs.drop (n + 1)) := by
    rw [← statementsCode_append, take_append_drop]
  refine ⟨?_, by rw [hfirst, length_append], ?_⟩
  · rw [hwhole, hfirst] at hcode
    exact hcode.left.right
  · rw [hwhole, length_append]
    exact Nat.le_add_right _ _

theorem Means.block (h : Means p code a x c c') (hcode : CodeAt code a x.code) (hsize : x.code.length < 2 ^ 32)
    (hidle : ∀ test body other c₁, x = .ifElse test body other → Block p code a test.length c c₁ →
      c₁.regs .eax = 0 →
      Block p code (a + BitVec.ofNat 32 (test.length + 8 + body.length + 5)) other.length
        (tested c₁) c' → c' = tested c₁) : Block p code a x.code.length c c' := by
  cases h with
  | plain h => exact h
  | body htest hne hbody => exact ifElse_nonzero hcode hsize htest hne hbody
  | other htest hzero hother =>
    rw [hidle _ _ _ _ rfl htest hzero hother]
    exact ifElse_zero hcode hsize htest hzero

theorem comesAlong_iff (hcode : CodeAt code a (statementsCode xs))
    (hsize : (statementsCode xs).length < 2 ^ 32) :
    ComesAlong p code a xs c ↔ OthersIdle p code a xs c := by
  constructor
  · intro halong n test body other c' c₁ c₂ hx hmeans htest hzero hother
    obtain ⟨hstatement, hlength, hle⟩ := codeAt_statement hcode hx
    -- the statements come to the end of the statement with the other body done, the code without
    have hmeant : MeansAll p code a (xs.take (n + 1)) c c₂ := by
      rw [take_succ_eq hx]
      exact meansAll_append.mpr ⟨c', hmeans, MeansAll.cons (Means.other htest hzero hother) MeansAll.nil⟩
    have hblock := halong (n + 1) c₂ hmeant
    have hdone := ifElse_zero hstatement (by
      have hsame : (Statement.ifElse test body other).code = ifElseCode test body other := rfl
      rw [← hsame]
      omega) htest hzero
    have hall := Block.append (halong n c' hmeans) hdone (by
      have hsame : (Statement.ifElse test body other).code = ifElseCode test body other := rfl
      rw [← hsame]
      omega)
    have hsame : (statementsCode (xs.take n)).length + (ifElseCode test body other).length =
        (statementsCode (xs.take (n + 1))).length := hlength.symm
    rw [hsame] at hall
    exact hblock.unique hall
  · intro hidle n
    induction n with
    | zero =>
      intro c' hmeans
      cases hmeans
      exact Block.nil
    | succ n ih =>
      intro c' hmeans
      cases hx : xs[n]? with
      | none =>
        have hlong : xs.length ≤ n := List.getElem?_eq_none_iff.mp hx
        rw [take_of_length_le (Nat.le_succ_of_le hlong)] at hmeans ⊢
        rw [take_of_length_le hlong] at ih
        exact ih c' hmeans
      | some x =>
        obtain ⟨hstatement, hlength, hle⟩ := codeAt_statement hcode hx
        rw [take_succ_eq hx] at hmeans
        obtain ⟨c₁, hfirst, hlast⟩ := meansAll_append.mp hmeans
        cases hlast with
        | cons hmeant hnil =>
          cases hnil
          rw [hlength]
          refine Block.append (ih c₁ hfirst) (hmeant.block hstatement (by omega) ?_) (by omega)
          rintro test body other c₂ rfl htest hzero hother
          exact hidle n test body other c₁ c₂ c' hx hfirst htest hzero hother

end Statements

inductive IfElse (tokens : List Token) (fuel : Nat) (test : List Byte) (ps qs : List Part) :
    Parser → Parser → Prop where
  | mk {s s₁ s₂ s₃ s' : Parser} {g : Gen} (hhead : Head tokens fuel .tokIf s g test)
      (hbody : ReadsParts tokens fuel ps (entered .ifThen s g) s₁)
      (hrbrace : typeAt tokens s₁.gen.pos = some .tokRbrace)
      (helse : typeAt tokens (s₁.gen.pos + 1) = some .tokElse)
      (hlbrace : typeAt tokens (s₁.gen.pos + 2) = some .tokLbrace)
      (hturn : parseTurn tokens fuel s₁ = some s₂) (hother : ReadsParts tokens fuel qs s₂ s₃)
      (hrbrace' : typeAt tokens s₃.gen.pos = some .tokRbrace)
      (hturn' : parseTurn tokens fuel s₃ = some s') : IfElse tokens fuel test ps qs s s'

inductive ReadsStatements (tokens : List Token) (fuel : Nat) : List Statement → Parser → Parser → Prop where
  | nil {s : Parser} : ReadsStatements tokens fuel [] s s
  | plain {ps : List Part} {xs : List Statement} {s s₁ s' : Parser}
      (h : ReadsParts tokens fuel ps s s₁) (hrest : ReadsStatements tokens fuel xs s₁ s') :
      ReadsStatements tokens fuel (.plain (partsCode ps) :: xs) s s'
  | ifElse {test : List Byte} {ps qs : List Part} {xs : List Statement} {s s₁ s' : Parser}
      (h : IfElse tokens fuel test ps qs s s₁) (hrest : ReadsStatements tokens fuel xs s₁ s') :
      ReadsStatements tokens fuel (.ifElse test (partsCode ps) (partsCode qs) :: xs) s s'

section Parser

variable {tokens : List Token} {fuel : Nat} {s s' : Parser} {test : List Byte} {ps qs : List Part}
  {xs : List Statement}

theorem IfElse.turned (h : IfElse tokens fuel test ps qs s s') : Turned tokens fuel s s' := by
  cases h with
  | mk hhead hbody _ _ _ hturn hother _ hturn' =>
    obtain ⟨hopen, henter⟩ := hhead.turns (.inl ⟨rfl, rfl⟩)
    exact ((((Turned.one hopen).trans (Turned.one henter)).trans hbody.turned).trans
      (Turned.one hturn)).trans (hother.turned.trans (Turned.one hturn'))

theorem IfElse.spec (h : IfElse tokens fuel test ps qs s s') :
    s'.gen.out = s.gen.out ++ ifElseCode test (partsCode ps) (partsCode qs) ∧
      s'.exitCode = exitAfter (exitAfter s.exitCode ps) qs := by
  cases h with
  | @mk s₁ s₂ s₃ _ g hhead hbody hrbrace helse hlbrace hturn hother hrbrace' hturn' =>
    have hclose := hhead.atClose hbody hrbrace
    obtain ⟨hout₂, hctrl₂, hdepth₂, hexit₂⟩ := hclose.else_starts helse hlbrace hturn
    obtain ⟨hout₃, hctrl₃, hdepth₃, hexit₃⟩ := hother.spec
    have hother₃ : s₃.gen.out = s.gen.out ++ (test ++ emitTest) ++
        (emitJz (BitVec.ofNat 32 (partsCode ps).length) ++ partsCode ps) ++
          (emitJmp 0 ++ partsCode qs) := by
      rw [hout₃, hout₂]
      simp only [append_assoc]
    obtain ⟨hlast, hexit⟩ := else_ends hrbrace'
      (by rw [hctrl₃, hctrl₂]; exact hclose.type_eq) (by rw [hctrl₃, hctrl₂])
      (by rw [hdepth₃, hdepth₂, hctrl₃, hctrl₂]) (by rw [hctrl₃, hctrl₂])
      (by simp only [length_append, length_emitJz]; omega) hother₃ hturn'
    refine ⟨?_, ?_⟩
    · rw [hlast]
      unfold ifElseCode
      simp only [append_assoc]
    · rw [hexit, hexit₃, hexit₂, hbody.spec.2.2.2]
      rfl

theorem ReadsStatements.spec (h : ReadsStatements tokens fuel xs s s') :
    Turned tokens fuel s s' ∧ s'.gen.out = s.gen.out ++ statementsCode xs := by
  induction h with
  | nil => exact ⟨Relation.ReflTransGen.refl, (append_nil _).symm⟩
  | plain h _ ih =>
    obtain ⟨hturned, hout⟩ := ih
    refine ⟨h.turned.trans hturned, ?_⟩
    rw [hout, h.spec.1, append_assoc]
    rfl
  | ifElse h _ ih =>
    obtain ⟨hturned, hout⟩ := ih
    refine ⟨h.turned.trans hturned, ?_⟩
    rw [hout, h.spec.1, append_assoc]
    rfl

/-- The code comes along with statements in a row exactly where every `else` whose condition is zero does nothing.
-/
theorem ifElse_iff (h : ReadsStatements tokens fuel xs s s') :
    Turned tokens fuel s s' ∧ s'.gen.out = s.gen.out ++ statementsCode xs ∧
      ∀ p code a c, CodeAt code a (statementsCode xs) → (statementsCode xs).length < 2 ^ 32 →
        (ComesAlong p code a xs c ↔ OthersIdle p code a xs c) :=
  ⟨h.spec.1, h.spec.2, fun _ _ _ _ hcode hsize => comesAlong_iff hcode hsize⟩

end Parser

section Trial

def trialNumber (n : Int) : Token := { trialToken .tokNumber "" with intVal := n }

def trialIfElse (n : Int) (statements : List Token) : List Token :=
  [trialToken .tokIf "if", trialToken .tokLparen "(", trialNumber n, trialToken .tokRparen ")",
    trialToken .tokLbrace "\x7b", trialToken .tokRbrace "\x7d", trialToken .tokElse "else",
    trialToken .tokLbrace "\x7b"] ++ statements ++ [trialToken .tokRbrace "\x7d", trialToken .tokEof ""]

/-- With nothing in the bodies. -/
theorem ifElse_iff_empty : ∃ s', Turned (trialIfElse 1 []) 20 (initialParser trialGen) s' ∧
      s'.gen.out = prologue ++ statementsCode [.ifElse (emitMovEaxImm 1) [] []] ∧
      ∀ p code a c, CodeAt code a (statementsCode [.ifElse (emitMovEaxImm 1) [] []]) →
        (statementsCode [.ifElse (emitMovEaxImm 1) [] []]).length < 2 ^ 32 →
        (ComesAlong p code a [.ifElse (emitMovEaxImm 1) [] []] c ↔
          OthersIdle p code a [.ifElse (emitMovEaxImm 1) [] []] c) := by
  let s := initialParser trialGen
  let g : Gen := ({ s.gen with pos := 2 }.emit (emitMovEaxImm 1)).skip 1
  have hhead : Head (trialIfElse 1 []) 20 .tokIf s g (emitMovEaxImm 1) :=
    { word := rfl
      lparen := rfl
      first := ⟨_, rfl, by decide⟩
      compiled := ⟨0, rfl, by decide⟩
      code := rfl
      rparen := rfl
      lbrace := rfl }
  obtain ⟨s₂, s', hturn, hrbrace, hturn'⟩ : ∃ s₂ s',
      parseTurn (trialIfElse 1 []) 20 (entered .ifThen s g) = some s₂ ∧
        typeAt (trialIfElse 1 []) s₂.gen.pos = some .tokRbrace ∧
        parseTurn (trialIfElse 1 []) 20 s₂ = some s' := ⟨_, _, rfl, rfl, rfl⟩
  have hifElse : IfElse (trialIfElse 1 []) 20 (emitMovEaxImm 1) [] [] s s' :=
    IfElse.mk hhead ReadsParts.nil rfl rfl rfl hturn ReadsParts.nil hrbrace hturn'
  exact ⟨s', ifElse_iff (ReadsStatements.ifElse hifElse ReadsStatements.nil)⟩

def assignTwo : List Token :=
  [trialToken .tokIdent "x", trialToken .tokAssign "=", trialNumber 2, trialToken .tokSemicolon ";"]

def trialStatements : List Statement :=
  [.ifElse (emitMovEaxImm 0) [] (emitMovEaxImm 2 ++ emitMovMemEbpEax (-4))]

/-- In `if (0) { } else { x = 2; }` the assignment is jumped over. -/
theorem not_comesAlong_zero :
    (parseLoop (trialIfElse 0 assignTwo) 4096 20 20 (initialParser trialGen)).map (·.gen.out) =
        some (prologue ++ statementsCode trialStatements) ∧
      ∀ p c, ¬ ComesAlong p (placed (statementsCode trialStatements) 0x08048089) 0x08048089
      trialStatements c := by
  refine ⟨by decide +kernel, fun p c halong => ?_⟩
  have hsize : (statementsCode trialStatements).length = 26 := rfl
  have hcode : CodeAt (placed (statementsCode trialStatements) 0x08048089) 0x08048089
      (statementsCode trialStatements) := codeAt_placed (by omega) _
  have hidle := (comesAlong_iff (p := p) (c := c) hcode (by omega)).mp halong
  have htest : CodeAt (placed (statementsCode trialStatements) 0x08048089) 0x08048089
      (emitMovEaxImm 0 ++ (statementsCode trialStatements).drop 5) := hcode
  have hother : CodeAt (placed (statementsCode trialStatements) 0x08048089)
      (0x08048089 + BitVec.ofNat 32 18) (emitMovEaxImm 2 ++ emitMovMemEbpEax (-4)) := by
    have hsplit : CodeAt (placed (statementsCode trialStatements) 0x08048089) 0x08048089
        ((statementsCode trialStatements).take 18 ++ (emitMovEaxImm 2 ++ emitMovMemEbpEax (-4))) := hcode
    exact hsplit.right
  have hstore : Decodes (emitMovMemEbpEax (-4))
      [.mov (slot (trialSymbol "x" .int (-4))) (.reg .eax)] :=
    @decodes_store_word (trialSymbol "x" .int (-4))
  -- the condition leaves 0, and the assignment would leave 2
  let c₁ : Cpu := c.setReg .eax 0
  let c₂ : Cpu := ((tested c₁).setReg .eax 2).set (slot (trialSymbol "x" .int (-4))) 2
  have hzero : Block p (placed (statementsCode trialStatements) 0x08048089) 0x08048089 5 c c₁ :=
    Block.straight (decodes_immediate 0) htest.left (by decide) rfl
  have hassigned : Block p (placed (statementsCode trialStatements) 0x08048089)
      (0x08048089 + BitVec.ofNat 32 18) 8 (tested c₁) c₂ :=
    Block.straight ((decodes_immediate 2).append hstore) hother (by decide) rfl
  have hsame := hidle 0 _ _ _ c c₁ c₂ rfl MeansAll.nil hzero rfl hassigned
  have heax : (2 : Word) = 0 := congrArg (fun c => c.regs .eax) hsame
  cases heax

end Trial

end JexOs.Tcc
