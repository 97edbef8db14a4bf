import JexOs.Proof.TccIfElse

/-!
# `return`

A `return` sets the number that the code at the end of the program exits with, and the last one in the text wins.
-/

namespace JexOs.Tcc

open X86 List

/-! ### The code -/

/-- A jump at the end of the body of a `while`, back to its condition. -/
def whileCode (test body : List Byte) : List Byte :=
  test ++ (emitTest ++ (emitJz (BitVec.ofNat 32 (body.length + 5)) ++
    (body ++ emitJmp (-BitVec.ofNat 32 (test.length + 8 + body.length + 5)))))

def ifThenCode (test body : List Byte) : List Byte :=
  test ++ (emitTest ++ (emitJz (BitVec.ofNat 32 body.length) ++ body))

/-- Statements in a row, a statement with bodies, or any other statements, without a `return`. -/
inductive Item where
  | parts (ps : List Part)
  | other (bytes : List Byte)
  | ifThen (test : List Byte) (ps : List Part)
  | ifElse (test : List Byte) (ps qs : List Part)
  | whileLoop (test : List Byte) (ps : List Part)
deriving DecidableEq, Repr

namespace Item

def code : Item → List Byte
  | .parts ps => partsCode ps
  | .other bytes => bytes
  | .ifThen test ps => ifThenCode test (partsCode ps)
  | .ifElse test ps qs => ifElseCode test (partsCode ps) (partsCode qs)
  | .whileLoop test ps => whileCode test (partsCode ps)

/-- The number of the last `return`, where `n` is that of the last one before. -/
def exit (n : Word) : Item → Word
  | .parts ps => exitAfter n ps
  | .other _ => n
  | .ifThen _ ps => exitAfter n ps
  | .ifElse _ ps qs => exitAfter (exitAfter n ps) qs
  | .whileLoop _ ps => exitAfter n ps

def loops : Item → Bool
  | .whileLoop _ _ => true
  | _ => false

def jump : Item → Option Nat
  | .ifElse test ps _ => some (test.length + 8 + (partsCode ps).length)
  | .whileLoop test ps => some (test.length + 8 + (partsCode ps).length)
  | _ => none

def Owns (x : Item) (o : Nat) : Prop :=
  o < x.code.length ∧ ∀ j, x.jump = some j → ¬ (j ≤ o ∧ o < j + 5)

end Item

def itemsCode (xs : List Item) : List Byte := xs.flatMap Item.code

def exitItems (n : Word) (xs : List Item) : Word := xs.foldl Item.exit n

theorem length_ifThenCode (test body : List Byte) :
    (ifThenCode test body).length = test.length + 8 + body.length := by
  unfold ifThenCode
  simp only [length_append, length_emitJz]
  have htest : emitTest.length = 2 := rfl
  omega

theorem length_whileCode (test body : List Byte) :
    (whileCode test body).length = test.length + 8 + body.length + 5 := by
  unfold whileCode
  simp only [length_append, length_emitJz, length_emitJmp]
  have htest : emitTest.length = 2 := rfl
  omega

/-! ### From the tokens to the code -/

inductive IfThen (tokens : List Token) (fuel : Nat) (test : List Byte) (ps : List Part) :
    Parser → Parser → Prop where
  | mk {s s₁ s' : Parser} {g : Gen} {type : TokenType} (hhead : Head tokens fuel .tokIf s g test)
      (hbody : ReadsParts tokens fuel ps (entered .ifThen s g) s₁)
      (hrbrace : typeAt tokens s₁.gen.pos = some .tokRbrace)
      (hnext : typeAt tokens (s₁.gen.pos + 1) = some type) (hne : type ≠ .tokElse)
      (hturn : parseTurn tokens fuel s₁ = some s') : IfThen tokens fuel test ps s s'

inductive WhileLoop (tokens : List Token) (fuel : Nat) (test : List Byte) (ps : List Part) :
    Parser → Parser → Prop where
  | mk {s s₁ s' : Parser} {g : Gen} (hhead : Head tokens fuel .tokWhile s g test)
      (hbody : ReadsParts tokens fuel ps (entered .whileLoop s g) s₁)
      (hrbrace : typeAt tokens s₁.gen.pos = some .tokRbrace)
      (hturn : parseTurn tokens fuel s₁ = some s') : WhileLoop tokens fuel test ps s s'

/-- The turns of the main loop on a program. Statements without a `return` are any that add code. -/
inductive ReadsItems (tokens : List Token) (fuel : Nat) : List Item → Parser → Parser → Prop where
  | nil {s : Parser} : ReadsItems tokens fuel [] s s
  | parts {ps : List Part} {xs : List Item} {s s₁ s' : Parser} (h : ReadsParts tokens fuel ps s s₁)
      (hrest : ReadsItems tokens fuel xs s₁ s') : ReadsItems tokens fuel (.parts ps :: xs) s s'
  | other {bytes : List Byte} {xs : List Item} {s s₁ s' : Parser} (h : Turned tokens fuel s s₁)
      (hout : s₁.gen.out = s.gen.out ++ bytes) (hexit : s₁.exitCode = s.exitCode)
      (hrest : ReadsItems tokens fuel xs s₁ s') : ReadsItems tokens fuel (.other bytes :: xs) s s'
  | ifThen {test : List Byte} {ps : List Part} {xs : List Item} {s s₁ s' : Parser}
      (h : IfThen tokens fuel test ps s s₁) (hrest : ReadsItems tokens fuel xs s₁ s') :
      ReadsItems tokens fuel (.ifThen test ps :: xs) s s'
  | ifElse {test : List Byte} {ps qs : List Part} {xs : List Item} {s s₁ s' : Parser}
      (h : IfElse tokens fuel test ps qs s s₁) (hrest : ReadsItems tokens fuel xs s₁ s') :
      ReadsItems tokens fuel (.ifElse test ps qs :: xs) s s'
  | whileLoop {test : List Byte} {ps : List Part} {xs : List Item} {s s₁ s' : Parser}
      (h : WhileLoop tokens fuel test ps s s₁) (hrest : ReadsItems tokens fuel xs s₁ s') :
      ReadsItems tokens fuel (.whileLoop test ps :: xs) s s'

section Parser

variable {tokens : List Token} {fuel : Nat} {s s' : Parser} {test : List Byte} {ps qs : List Part}
  {xs : List Item}

theorem IfThen.spec (h : IfThen tokens fuel test ps s s') : Turned tokens fuel s s' ∧
    s'.gen.out = s.gen.out ++ ifThenCode test (partsCode ps) ∧ s'.exitCode = exitAfter s.exitCode ps := by
  cases h with
  | mk hhead hbody hrbrace hnext hne hturn =>
    obtain ⟨hopen, henter⟩ := hhead.turns (.inl ⟨rfl, rfl⟩)
    obtain ⟨hout, hexit⟩ := (hhead.atClose hbody hrbrace).then_ends hnext hne hturn
    refine ⟨?_, ?_, hexit.trans hbody.spec.2.2.2⟩
    · exact (((Turned.one hopen).trans (Turned.one henter)).trans hbody.turned).trans (Turned.one hturn)
    · rw [hout]
      unfold ifThenCode
      simp only [append_assoc]

theorem WhileLoop.spec (h : WhileLoop tokens fuel test ps s s') : Turned tokens fuel s s' ∧
    s'.gen.out = s.gen.out ++ whileCode test (partsCode ps) ∧ s'.exitCode = exitAfter s.exitCode ps := by
  cases h with
  | @mk s₁ _ g hhead hbody hrbrace hturn =>
    obtain ⟨hopen, henter⟩ := hhead.turns (.inr ⟨rfl, rfl⟩)
    have hfront : (s.gen.out ++ (test ++ emitTest)).length = s.gen.out.length + (test.length + 2) := by
      simp only [length_append]
      rfl
    have htop : s₁.ctrl.loopTop = s.gen.out.length := by
      rw [hbody.spec.2.1]
      rfl
    obtain ⟨hout, hexit⟩ := (hhead.atClose hbody hrbrace).while_ends (by omega) htop (by omega) hturn
    refine ⟨?_, ?_, hexit.trans hbody.spec.2.2.2⟩
    · exact (((Turned.one hopen).trans (Turned.one henter)).trans hbody.turned).trans (Turned.one hturn)
    · have hback : (s.gen.out ++ (test ++ emitTest)).length - s.gen.out.length + 6 +
          (partsCode ps).length + 5 = test.length + 8 + (partsCode ps).length + 5 := by omega
      rw [hout, hback]
      unfold whileCode
      simp only [append_assoc]

theorem ReadsItems.spec (h : ReadsItems tokens fuel xs s s') : Turned tokens fuel s s' ∧
    s'.gen.out = s.gen.out ++ itemsCode xs ∧ s'.exitCode = exitItems s.exitCode xs := by
  have hjoin : ∀ {x : Item} {xs : List Item} {s s₁ s' : Parser},
      Turned tokens fuel s s₁ ∧ s₁.gen.out = s.gen.out ++ x.code ∧ s₁.exitCode = x.exit s.exitCode →
      Turned tokens fuel s₁ s' ∧ s'.gen.out = s₁.gen.out ++ itemsCode xs ∧
        s'.exitCode = exitItems s₁.exitCode xs →
      Turned tokens fuel s s' ∧ s'.gen.out = s.gen.out ++ itemsCode (x :: xs) ∧
        s'.exitCode = exitItems s.exitCode (x :: xs) := by
    rintro x xs s s₁ s' ⟨hturned, hout, hexit⟩ ⟨hturned', hout', hexit'⟩
    refine ⟨hturned.trans hturned', ?_, ?_⟩
    · rw [hout', hout, append_assoc]
      rfl
    · rw [hexit', hexit]
      rfl
  induction h with
  | nil => exact ⟨Relation.ReflTransGen.refl, (append_nil _).symm, rfl⟩
  | parts h _ ih => exact hjoin ⟨h.turned, h.spec.1, h.spec.2.2.2⟩ ih
  | other h hout hexit _ ih => exact hjoin ⟨h, hout, hexit⟩ ih
  | ifThen h _ ih => exact hjoin h.spec ih
  | ifElse h _ ih => exact hjoin ⟨h.turned, h.spec⟩ ih
  | whileLoop h _ ih => exact hjoin h.spec ih

end Parser

/-! ### Runs -/

/-- Where a run came to a `return`, whether a `while` is around it, and what stands behind it. -/
structure Place where
  offset : Nat
  loop : Bool
  rest : List Part
  behind : List Item

inductive Outcome where
  | falls (c : Cpu)
  | returns (n : Word) (c : Cpu) (place : Place)

section Runs

variable (p : Platform) (code : Word → Byte) (a : Word)

/-- The statements of a body, from the byte `k` on, fall through. -/
inductive Falls : Nat → List Part → Cpu → Cpu → Prop where
  | nil {k : Nat} {c : Cpu} : Falls k [] c c
  | code {k : Nat} {bytes : List Byte} {ps : List Part} {c c₁ c' : Cpu}
      (h : Block p code (a + BitVec.ofNat 32 k) bytes.length c c₁)
      (hrest : Falls (k + bytes.length) ps c₁ c') : Falls k (.code bytes :: ps) c c'

/-- They come to a `return`, at the byte `j` and with the statements behind it. -/
inductive Returned : Nat → List Part → Cpu → Word → Cpu → Nat → List Part → Prop where
  | here {k : Nat} {n : Word} {ps : List Part} {c : Cpu} : Returned k (.ret n :: ps) c n c k ps
  | code {k j : Nat} {bytes : List Byte} {ps rest : List Part} {c c₁ c' : Cpu} {n : Word}
      (h : Block p code (a + BitVec.ofNat 32 k) bytes.length c c₁)
      (hrest : Returned (k + bytes.length) ps c₁ n c' j rest) :
      Returned k (.code bytes :: ps) c n c' j rest

/-- The statement at the byte `k` enters a body, at the byte `j`. An `else` is entered only where it has no code. -/
inductive EntersBody : Nat → Item → Cpu → Nat → List Part → Cpu → Prop where
  | parts {k : Nat} {ps : List Part} {c : Cpu} : EntersBody k (.parts ps) c k ps c
  | ifThen {k : Nat} {test : List Byte} {ps : List Part} {c c₁ : Cpu}
      (htest : Block p code (a + BitVec.ofNat 32 k) test.length c c₁) (hne : c₁.regs .eax ≠ 0) :
      EntersBody k (.ifThen test ps) c (k + (test.length + 8)) ps (tested c₁)
  | ifElse {k : Nat} {test : List Byte} {ps qs : List Part} {c c₁ : Cpu}
      (htest : Block p code (a + BitVec.ofNat 32 k) test.length c c₁) (hne : c₁.regs .eax ≠ 0) :
      EntersBody k (.ifElse test ps qs) c (k + (test.length + 8)) ps (tested c₁)
  | elseBody {k : Nat} {test : List Byte} {ps qs : List Part} {c c₁ : Cpu}
      (htest : Block p code (a + BitVec.ofNat 32 k) test.length c c₁) (hzero : c₁.regs .eax = 0)
      (hempty : partsCode qs = []) :
      EntersBody k (.ifElse test ps qs) c (k + (Item.ifElse test ps qs).code.length) qs (tested c₁)
  | whileLoop {k : Nat} {test : List Byte} {ps : List Part} {c c₁ : Cpu}
      (htest : Block p code (a + BitVec.ofNat 32 k) test.length c c₁) (hne : c₁.regs .eax ≠ 0) :
      EntersBody k (.whileLoop test ps) c (k + (test.length + 8)) ps (tested c₁)

inductive GoesBy : Nat → Item → Cpu → Cpu → Prop where
  | other {k : Nat} {bytes : List Byte} {c c₁ : Cpu}
      (h : Block p code (a + BitVec.ofNat 32 k) bytes.length c c₁) : GoesBy k (.other bytes) c c₁
  | ifThen {k : Nat} {test : List Byte} {ps : List Part} {c c₁ : Cpu}
      (htest : Block p code (a + BitVec.ofNat 32 k) test.length c c₁) (hzero : c₁.regs .eax = 0) :
      GoesBy k (.ifThen test ps) c (tested c₁)
  | whileLoop {k : Nat} {test : List Byte} {ps : List Part} {c c₁ : Cpu}
      (htest : Block p code (a + BitVec.ofNat 32 k) test.length c c₁) (hzero : c₁.regs .eax = 0) :
      GoesBy k (.whileLoop test ps) c (tested c₁)

/-- A run by the meaning of the statements, from the byte `k` on. It ends at the first `return`. -/
inductive RunsTo : Nat → List Item → Cpu → Outcome → Prop where
  | nil {k : Nat} {c : Cpu} : RunsTo k [] c (.falls c)
  | passes {k : Nat} {x : Item} {xs : List Item} {c c₁ : Cpu} {o : Outcome}
      (h : GoesBy p code a k x c c₁) (hrest : RunsTo (k + x.code.length) xs c₁ o) :
      RunsTo k (x :: xs) c o
  | body {k j : Nat} {x : Item} {xs : List Item} {ps : List Part} {c c₁ c₂ : Cpu} {o : Outcome}
      (h : EntersBody p code a k x c j ps c₁) (hfalls : Falls p code a j ps c₁ c₂)
      (hloops : x.loops = false) (hrest : RunsTo (k + x.code.length) xs c₂ o) : RunsTo k (x :: xs) c o
  | again {k j : Nat} {x : Item} {xs : List Item} {ps : List Part} {c c₁ c₂ : Cpu} {o : Outcome}
      (h : EntersBody p code a k x c j ps c₁) (hfalls : Falls p code a j ps c₁ c₂)
      (hloops : x.loops = true) (hrest : RunsTo k (x :: xs) c₂ o) : RunsTo k (x :: xs) c o
  | ret {k j i : Nat} {x : Item} {xs : List Item} {ps rest : List Part} {c c₁ c' : Cpu} {n : Word}
      (h : EntersBody p code a k x c j ps c₁) (hreturned : Returned p code a j ps c₁ n c' i rest) :
      RunsTo k (x :: xs) c
        (.returns n c'
          { offset := i
            loop := x.loops
            rest := rest
            behind := xs })

/-- A byte of a statement, or of a condition and its test: not one of the jump behind a body. -/
def OwnsAt : List Item → Nat → Prop
  | [], _ => False
  | x :: xs, o => if o < x.code.length then x.Owns o else OwnsAt xs (o - x.code.length)

def Between (xs : List Item) (b : Word) : Prop :=
  ∃ o, o < (itemsCode xs).length ∧ b = a + BitVec.ofNat 32 o ∧ ¬ OwnsAt xs o

def ExitsWith (e : Word) (c : Cpu) (n : Word) : Prop :=
  ∃ c', Departs p code (X86.Within e 13) { cpu := c, eip := e }
      { cpu := c', eip := e + BitVec.ofNat 32 13 } ∧
    CodeAt code (e + BitVec.ofNat 32 13) emitInt80 ∧ c'.regs .eax = 1 ∧ c'.regs .ebx = n

/-- The machine comes to the `return` of the run, from there over jumps alone to the end, and exits with its number.
-/
def RightEnd (xs : List Item) (c : Cpu) : Outcome → Prop
  | .falls c' =>
    Comes p code { cpu := c, eip := a }
        { cpu := c', eip := a + BitVec.ofNat 32 (itemsCode xs).length } ∧
      ExitsWith p code (a + BitVec.ofNat 32 (itemsCode xs).length) c' 0
  | .returns n c' place =>
    Comes p code { cpu := c, eip := a } { cpu := c', eip := a + BitVec.ofNat 32 place.offset } ∧
      Departs p code (Between a xs) { cpu := c', eip := a + BitVec.ofNat 32 place.offset }
        { cpu := c', eip := a + BitVec.ofNat 32 (itemsCode xs).length } ∧
      ExitsWith p code (a + BitVec.ofNat 32 (itemsCode xs).length) c' n

end Runs

/-- The last `return` of the text has the number of the run's, which is in no `while` and has no code behind it. -/
def LastCounts (xs : List Item) : Outcome → Prop
  | .falls _ => exitItems 0 xs = 0
  | .returns n _ place =>
    exitItems 0 xs = n ∧ place.loop = false ∧ partsCode place.rest = [] ∧ itemsCode place.behind = []

section Machine

variable {p : Platform} {code : Word → Byte} {a : Word} {c c₁ c₂ c' : Cpu}

theorem comes_test {b rel : Word} (hcode : CodeAt code b (emitTest ++ emitJz rel)) :
    Comes p code { cpu := c, eip := b }
      { cpu := tested c
        eip := if c.regs .eax = 0 then b + BitVec.ofNat 32 8 + rel else b + BitVec.ofNat 32 8 } := by
  have htest : p.step code { cpu := c, eip := b } =
      some { cpu := tested c, eip := b + BitVec.ofNat 32 2 } :=
    Platform.step_plain (q := .test (.reg .eax) (.reg .eax)) hcode.left (by decide) (fun _ => rfl) rfl
  have hjz := Platform.step_jcc (p := p) (c := tested c) hcode.right (Nat.le_add_left 6 9) (decode_jz rel)
  have hnext : b + BitVec.ofNat 32 emitTest.length + BitVec.ofNat 32 (emitJz rel).length =
      b + BitVec.ofNat 32 8 := add_ofNat_ofNat b 2 6
  have hzero : ((tested c).cond .e = true) = (c.regs .eax = 0) := by
    have h : (tested c).cond .e = (c.regs .eax &&& c.regs .eax == 0) := rfl
    rw [h, BitVec.and_self, beq_iff_eq]
  rw [hnext] at hjz
  simp only [hzero] at hjz
  exact Relation.ReflTransGen.head htest (Relation.ReflTransGen.single hjz)

theorem step_jump {b rel : Word} (hcode : CodeAt code b (emitJmp rel)) :
    p.step code { cpu := c, eip := b } = some { cpu := c, eip := b + BitVec.ofNat 32 5 + rel } :=
  Platform.step_jmp hcode (Nat.le_add_left 5 10) (decode_jmp rel)

theorem Falls.comes {k : Nat} {ps : List Part} (h : Falls p code a k ps c c') :
    Comes p code { cpu := c, eip := a + BitVec.ofNat 32 k }
      { cpu := c', eip := a + BitVec.ofNat 32 (k + (partsCode ps).length) } := by
  induction h with
  | nil => exact Comes.refl _
  | @code k bytes ps c c₁ c' h _ ih =>
    have hlength : (partsCode (.code bytes :: ps)).length = bytes.length + (partsCode ps).length :=
      length_append
    have hfirst := h.comes
    rw [add_ofNat_ofNat] at hfirst
    rw [hlength, ← Nat.add_assoc]
    exact hfirst.trans ih

theorem Returned.comes {k i : Nat} {ps rest : List Part} {n : Word}
    (h : Returned p code a k ps c n c' i rest) :
    Comes p code { cpu := c, eip := a + BitVec.ofNat 32 k } { cpu := c', eip := a + BitVec.ofNat 32 i } ∧
      k ≤ i ∧ i + (partsCode rest).length = k + (partsCode ps).length := by
  induction h with
  | here => exact ⟨Comes.refl _, le_rfl, rfl⟩
  | @code k i bytes ps rest c c₁ c' n h _ ih =>
    obtain ⟨hrest, hle, hlength⟩ := ih
    have hfirst := h.comes
    rw [add_ofNat_ofNat] at hfirst
    have hcons : (partsCode (.code bytes :: ps)).length = bytes.length + (partsCode ps).length := length_append
    exact ⟨hfirst.trans hrest, by omega, by omega⟩

theorem comes_head {k : Nat} {test rest : List Byte} {rel : Word}
    (hcode : CodeAt code (a + BitVec.ofNat 32 k) (test ++ (emitTest ++ (emitJz rel ++ rest))))
    (htest : Block p code (a + BitVec.ofNat 32 k) test.length c c₁) :
    Comes p code { cpu := c, eip := a + BitVec.ofNat 32 k }
      { cpu := tested c₁
        eip := if c₁.regs .eax = 0 then a + BitVec.ofNat 32 (k + (test.length + 8)) + rel
          else a + BitVec.ofNat 32 (k + (test.length + 8)) } := by
  have hsecond := hcode.right
  rw [← append_assoc, add_ofNat_ofNat] at hsecond
  have hfirst := htest.comes
  rw [add_ofNat_ofNat] at hfirst
  have hjump := comes_test (p := p) (c := c₁) hsecond.left
  rw [add_ofNat_ofNat, Nat.add_assoc] at hjump
  exact hfirst.trans hjump

structure BodyAt (code : Word → Byte) (a : Word) (k : Nat) (x : Item) (j e : Nat) : Prop where
  le : k ≤ j ∧ j ≤ e
  owns : ∀ i, j ≤ i → i < e → x.Owns (i - k)
  ends : (x.loops = false ∧ e = k + x.code.length) ∨
    ∃ m rel, x.jump = some m ∧ e = k + m ∧ CodeAt code (a + BitVec.ofNat 32 e) (emitJmp rel) ∧
      a + BitVec.ofNat 32 e + BitVec.ofNat 32 5 + rel =
        a + BitVec.ofNat 32 (if x.loops then k else k + x.code.length)

theorem EntersBody.spec {k j : Nat} {x : Item} {ps : List Part} (h : EntersBody p code a k x c j ps c₁)
    (hcode : CodeAt code (a + BitVec.ofNat 32 k) x.code) :
    Comes p code { cpu := c, eip := a + BitVec.ofNat 32 k } { cpu := c₁, eip := a + BitVec.ofNat 32 j } ∧
      BodyAt code a k x j (j + (partsCode ps).length) := by
  have hnone : ∀ {x : Item} {o : Nat}, x.jump = none → o < x.code.length → x.Owns o := by
    intro x o hjump ho
    refine ⟨ho, fun j hj => ?_⟩
    rw [hjump] at hj
    cases hj
  have hsome : ∀ {x : Item} {m o : Nat}, x.jump = some m → o < m → m < x.code.length → x.Owns o := by
    intro x m o hjump ho hm
    refine ⟨by omega, fun j hj => ?_⟩
    rw [hjump] at hj
    cases hj
    omega
  cases h with
  | parts =>
    refine ⟨Comes.refl _, ⟨le_rfl, Nat.le_add_right _ _⟩, fun i _ hi => hnone rfl ?_, .inl ⟨rfl, rfl⟩⟩
    have hlength : (Item.parts ps).code.length = (partsCode ps).length := rfl
    omega
  | @ifThen test _ _ c₁ htest hne =>
    have hlength : (Item.ifThen test ps).code.length = test.length + 8 + (partsCode ps).length :=
      length_ifThenCode _ _
    have hcomes := comes_head hcode htest
    rw [if_neg hne] at hcomes
    exact ⟨hcomes, ⟨by omega, by omega⟩, fun i _ hi => hnone rfl (by omega), .inl ⟨rfl, by omega⟩⟩
  | @ifElse test _ qs _ c₁ htest hne =>
    have hlength : (Item.ifElse test ps qs).code.length =
        test.length + 8 + (partsCode ps).length + 5 + (partsCode qs).length := length_ifElseCode _ _ _
    have hcomes := comes_head hcode htest
    rw [if_neg hne] at hcomes
    have hjump : (Item.ifElse test ps qs).jump = some (test.length + 8 + (partsCode ps).length) := rfl
    refine ⟨hcomes, ⟨by omega, by omega⟩, fun i _ hi => hsome hjump (by omega) (by omega),
      .inr ⟨_, BitVec.ofNat 32 (partsCode qs).length, hjump, by omega, ?_, ?_⟩⟩
    · have h := (codeAt_ifElse hcode).2
      rw [add_ofNat_ofNat] at h
      have hsame : k + (test.length + 8) + (partsCode ps).length =
          k + (test.length + 8 + (partsCode ps).length) := by omega
      rw [hsame]
      exact h
    · have hloops : (Item.ifElse test ps qs).loops = false := rfl
      rw [add_ofNat_ofNat, add_ofNat_ofNat, hloops, if_neg (by decide), hlength]
      congr 2
      omega
  | @elseBody test qs _ _ c₁ htest hzero hempty =>
    have hlength : (Item.ifElse test qs ps).code.length =
        test.length + 8 + (partsCode qs).length + 5 + (partsCode ps).length := length_ifElseCode _ _ _
    have hbody : (partsCode ps).length = 0 := by rw [hempty]; rfl
    -- the `jz` goes to the jump, which goes behind the statement
    have hcomes := comes_head hcode htest
    rw [if_pos hzero, add_ofNat_ofNat] at hcomes
    have hjmp := (codeAt_ifElse hcode).2
    rw [add_ofNat_ofNat] at hjmp
    have hstep := step_jump (p := p) (c := tested c₁) hjmp
    rw [add_ofNat_ofNat, add_ofNat_ofNat] at hstep
    have hfirst : k + (test.length + 8) + (partsCode qs).length =
        k + (test.length + 8 + (partsCode qs).length) := by omega
    have hlast : k + (test.length + 8 + (partsCode qs).length) + (5 + (partsCode ps).length) =
        k + (Item.ifElse test qs ps).code.length := by omega
    rw [hfirst] at hcomes
    rw [hlast] at hstep
    exact ⟨hcomes.trans (Relation.ReflTransGen.single hstep), ⟨by omega, by omega⟩,
      fun i hi hi' => by omega, .inl ⟨rfl, by omega⟩⟩
  | @whileLoop test _ _ c₁ htest hne =>
    have hlength : (Item.whileLoop test ps).code.length =
        test.length + 8 + (partsCode ps).length + 5 := length_whileCode _ _
    have hcomes := comes_head hcode htest
    rw [if_neg hne] at hcomes
    have hjump : (Item.whileLoop test ps).jump = some (test.length + 8 + (partsCode ps).length) := rfl
    refine ⟨hcomes, ⟨by omega, by omega⟩, fun i _ hi => hsome hjump (by omega) (by omega),
      .inr ⟨_, -BitVec.ofNat 32 (test.length + 8 + (partsCode ps).length + 5), hjump, by omega,
        ?_, ?_⟩⟩
    · have h := hcode.right.right.right.right
      have hjz : (emitJz (BitVec.ofNat 32 ((partsCode ps).length + 5))).length = 6 := rfl
      have htwo : emitTest.length = 2 := rfl
      rw [add_ofNat_ofNat, add_ofNat_ofNat, add_ofNat_ofNat, add_ofNat_ofNat, hjz, htwo] at h
      have hsame : k + (test.length + 8) + (partsCode ps).length =
          k + (test.length + (2 + (6 + (partsCode ps).length))) := by omega
      rw [hsame]
      exact h
    · have hloops : (Item.whileLoop test ps).loops = true := rfl
      have hend : k + (test.length + 8) + (partsCode ps).length + 5 =
          k + (test.length + 8 + (partsCode ps).length + 5) := by omega
      rw [add_ofNat_ofNat, hloops, if_pos rfl, hend, ← add_ofNat_ofNat, BitVec.add_assoc,
        BitVec.add_right_neg, BitVec.add_zero]

theorem GoesBy.comes {k : Nat} {x : Item} (h : GoesBy p code a k x c c₁)
    (hcode : CodeAt code (a + BitVec.ofNat 32 k) x.code) :
    Comes p code { cpu := c, eip := a + BitVec.ofNat 32 k }
      { cpu := c₁, eip := a + BitVec.ofNat 32 (k + x.code.length) } := by
  cases h with
  | other h =>
    have hall := h.comes
    rw [add_ofNat_ofNat] at hall
    exact hall
  | @ifThen test ps _ c₁ htest hzero =>
    have hall := comes_head hcode htest
    rw [if_pos hzero, add_ofNat_ofNat] at hall
    have hlength : (Item.ifThen test ps).code.length = test.length + 8 + (partsCode ps).length :=
      length_ifThenCode _ _
    rw [hlength, ← Nat.add_assoc, ← Nat.add_assoc]
    exact hall
  | @whileLoop test ps _ c₁ htest hzero =>
    have hall := comes_head hcode htest
    rw [if_pos hzero, add_ofNat_ofNat] at hall
    have hlength : (Item.whileLoop test ps).code.length =
        test.length + 8 + (partsCode ps).length + 5 := length_whileCode _ _
    have hsame : k + (test.length + 8) + ((partsCode ps).length + 5) =
        k + (Item.whileLoop test ps).code.length := by omega
    rw [← hsame]
    exact hall

theorem BodyAt.comes {k j e : Nat} {x : Item} (h : BodyAt code a k x j e) (c : Cpu) :
    Comes p code { cpu := c, eip := a + BitVec.ofNat 32 e }
      { cpu := c, eip := a + BitVec.ofNat 32 (if x.loops then k else k + x.code.length) } := by
  rcases h.ends with ⟨hloops, hend⟩ | ⟨m, rel, -, -, hcode, hland⟩
  · rw [hloops, hend]
    exact Comes.refl _
  · have hstep := step_jump (p := p) (c := c) hcode
    rw [hland] at hstep
    exact Relation.ReflTransGen.single hstep

theorem itemsCode_append (xs ys : List Item) : itemsCode (xs ++ ys) = itemsCode xs ++ itemsCode ys :=
  flatMap_append

theorem codeAt_item {front behind : List Item} {x : Item}
    (h : CodeAt code a (itemsCode (front ++ x :: behind))) :
    CodeAt code (a + BitVec.ofNat 32 (itemsCode front).length) x.code := by
  rw [itemsCode_append] at h
  have hsplit : CodeAt code (a + BitVec.ofNat 32 (itemsCode front).length)
    (x.code ++ itemsCode behind) := h.right
  exact hsplit.left

def Arrives (p : Platform) (code : Word → Byte) (a : Word) (items : List Item) (s : State) : Outcome → Prop
  | .falls c' => Comes p code s { cpu := c', eip := a + BitVec.ofNat 32 (itemsCode items).length }
  | .returns _ c' place =>
    Comes p code s { cpu := c', eip := a + BitVec.ofNat 32 place.offset } ∧
      ∃ front x j e, items = front ++ x :: place.behind ∧ place.loop = x.loops ∧
        BodyAt code a (itemsCode front).length x j e ∧ j ≤ place.offset ∧
        place.offset + (partsCode place.rest).length = e

theorem Arrives.behind {items : List Item} {s s' : State} {o : Outcome}
    (h : Arrives p code a items s' o) (hcomes : Comes p code s s') : Arrives p code a items s o := by
  cases o with
  | falls c' => exact hcomes.trans h
  | returns n c' place => exact ⟨hcomes.trans h.1, h.2⟩

theorem RunsTo.arrives {items ys : List Item} {k : Nat} {o : Outcome} (h : RunsTo p code a k ys c o)
    (hcode : CodeAt code a (itemsCode items)) {front : List Item} (hitems : items = front ++ ys)
    (hk : k = (itemsCode front).length) :
    Arrives p code a items { cpu := c, eip := a + BitVec.ofNat 32 k } o := by
  have hnext : ∀ {x : Item} {front : List Item},
      (itemsCode (front ++ [x])).length = (itemsCode front).length + x.code.length := by
    intro x front
    rw [itemsCode_append, length_append]
    congr 1
    exact congrArg List.length (append_nil x.code)
  induction h generalizing front with
  | nil =>
    rw [append_nil] at hitems
    rw [hk, ← hitems]
    exact Comes.refl _
  | @passes k x xs c c₁ o h _ ih =>
    have hx : CodeAt code (a + BitVec.ofNat 32 k) x.code := by
      rw [hk]
      exact codeAt_item (hitems ▸ hcode)
    have hitems' : items = (front ++ [x]) ++ xs := by
      rw [hitems, append_assoc]
      rfl
    exact (ih hitems' (by rw [hnext, hk])).behind (h.comes hx)
  | @body k j x xs ps c c₁ c₂ o h hfalls hloops _ ih =>
    have hx : CodeAt code (a + BitVec.ofNat 32 k) x.code := by
      rw [hk]
      exact codeAt_item (hitems ▸ hcode)
    obtain ⟨henters, hbody⟩ := h.spec hx
    have hends := hbody.comes (p := p) c₂
    rw [hloops] at hends
    have hitems' : items = (front ++ [x]) ++ xs := by
      rw [hitems, append_assoc]
      rfl
    exact (ih hitems' (by rw [hnext, hk])).behind ((henters.trans hfalls.comes).trans hends)
  | @again k j x xs ps c c₁ c₂ o h hfalls hloops _ ih =>
    have hx : CodeAt code (a + BitVec.ofNat 32 k) x.code := by
      rw [hk]
      exact codeAt_item (hitems ▸ hcode)
    obtain ⟨henters, hbody⟩ := h.spec hx
    have hends := hbody.comes (p := p) c₂
    rw [hloops] at hends
    exact (ih hitems hk).behind ((henters.trans hfalls.comes).trans hends)
  | @ret k j i x xs ps rest c c₁ c' n h hreturned =>
    have hx : CodeAt code (a + BitVec.ofNat 32 k) x.code := by
      rw [hk]
      exact codeAt_item (hitems ▸ hcode)
    obtain ⟨henters, hbody⟩ := h.spec hx
    obtain ⟨hcomes, hle, hlength⟩ := hreturned.comes
    refine ⟨henters.trans hcomes, front, x, j, _, hitems, rfl, ?_, hle, hlength⟩
    rw [← hk]
    exact hbody

/-! ### Behind a `return` -/

theorem ownsAt_append {front xs : List Item} {o : Nat} :
    OwnsAt (front ++ xs) ((itemsCode front).length + o) ↔ OwnsAt xs o := by
  induction front with
  | nil => rw [nil_append, show (itemsCode []).length = 0 from rfl, Nat.zero_add]
  | cons x front ih =>
    have hlength : (itemsCode (x :: front)).length = x.code.length + (itemsCode front).length := length_append
    have hpast : ¬ (itemsCode (x :: front)).length + o < x.code.length := by omega
    rw [cons_append, OwnsAt, if_neg hpast]
    have hsub : (itemsCode (x :: front)).length + o - x.code.length = (itemsCode front).length + o := by omega
    rw [hsub]
    exact ih

theorem Item.jump_pos {x : Item} {m : Nat} (h : x.jump = some m) : 8 ≤ m ∧ m + 5 ≤ x.code.length := by
  cases x with
  | parts | other | ifThen => cases h
  | ifElse test ps qs =>
    cases h
    have hlength : (Item.ifElse test ps qs).code.length =
        test.length + 8 + (partsCode ps).length + 5 + (partsCode qs).length := length_ifElseCode _ _ _
    exact ⟨by omega, by omega⟩
  | whileLoop test ps =>
    cases h
    have hlength : (Item.whileLoop test ps).code.length =
        test.length + 8 + (partsCode ps).length + 5 := length_whileCode _ _
    exact ⟨by omega, by omega⟩

theorem Item.owns_zero {x : Item} (h : 0 < x.code.length) : x.Owns 0 :=
  ⟨h, fun m hm => by
    have := (Item.jump_pos hm).1
    omega⟩

theorem ownsAt_zero {xs : List Item} (h : itemsCode xs ≠ []) : OwnsAt xs 0 := by
  induction xs with
  | nil => exact absurd rfl h
  | cons x xs ih =>
    rw [OwnsAt]
    split
    · rename_i hpos
      exact Item.owns_zero hpos
    · have hnil : x.code = [] := eq_nil_of_length_eq_zero (by omega)
      rw [Nat.zero_sub]
      refine ih fun hxs => h ?_
      show x.code ++ itemsCode xs = []
      rw [hnil, hxs]
      rfl

theorem ownsAt_item {front behind : List Item} {x : Item} {o : Nat} (h : x.Owns o) :
    OwnsAt (front ++ x :: behind) ((itemsCode front).length + o) := by
  rw [ownsAt_append, OwnsAt, if_pos h.1]
  exact h

section Landing

variable {items front behind : List Item} {x : Item} {i j e : Nat}

theorem offset_eq (hi : i < 2 ^ 32) (hj : j < 2 ^ 32)
    (h : a + BitVec.ofNat 32 i = a + BitVec.ofNat 32 j) : i = j := by
  have h' := congrArg (fun b => (b - a).toNat) h
  simp only [BitVec.add_comm a, BitVec.add_sub_cancel, BitVec.toNat_ofNat] at h'
  omega

theorem between_iff (hi : i < 2 ^ 32) (hsize : (itemsCode items).length < 2 ^ 32) :
    Between a items (a + BitVec.ofNat 32 i) ↔ i < (itemsCode items).length ∧ ¬ OwnsAt items i := by
  constructor
  · rintro ⟨o, ho, heq, hown⟩
    have hsame := offset_eq hi (by omega) heq
    rw [hsame]
    exact ⟨ho, hown⟩
  · rintro ⟨hlt, hown⟩
    exact ⟨i, hlt, rfl, hown⟩

theorem not_departs_owned (hown : OwnsAt items i) (hi : i < (itemsCode items).length)
    (hsize : (itemsCode items).length < 2 ^ 32) :
    ¬ Departs p code (Between a items) { cpu := c, eip := a + BitVec.ofNat 32 i }
      { cpu := c', eip := a + BitVec.ofNat 32 (itemsCode items).length } := by
  intro h
  have hout : ¬ Between a items (a + BitVec.ofNat 32 i) := by
    rw [between_iff (by omega) hsize]
    exact fun h => h.2 hown
  have hsame := Departs.unique h (Departs.out hout)
  have heip := offset_eq hsize (by omega) (congrArg State.eip hsame)
  omega

variable (hitems : items = front ++ x :: behind)

include hitems

theorem length_items : (itemsCode items).length =
      (itemsCode front).length + x.code.length + (itemsCode behind).length := by
  have hcons : (itemsCode (x :: behind)).length = x.code.length + (itemsCode behind).length := length_append
  rw [hitems, itemsCode_append, length_append, hcons, Nat.add_assoc]

theorem departs_behind (hsize : (itemsCode items).length < 2 ^ 32) : Departs p code (Between a items)
        { cpu := c', eip := a + BitVec.ofNat 32 ((itemsCode front).length + x.code.length) }
        { cpu := c', eip := a + BitVec.ofNat 32 (itemsCode items).length } ↔
      itemsCode behind = [] := by
  have hlength := length_items hitems
  constructor
  · intro h
    by_contra hne
    have hpos := length_pos_iff.mpr hne
    refine not_departs_owned ?_ (by omega) hsize h
    have hfirst : OwnsAt (x :: behind) x.code.length := by
      rw [OwnsAt, if_neg (lt_irrefl _), Nat.sub_self]
      exact ownsAt_zero hne
    rw [hitems, ownsAt_append]
    exact hfirst
  · intro hnil
    have hzero : (itemsCode behind).length = 0 := by rw [hnil]; rfl
    rw [hlength, hzero, Nat.add_zero]
    refine Departs.out ?_
    rw [between_iff (by omega) hsize]
    omega

theorem departs_return_iff {rest : List Byte} (hsize : (itemsCode items).length < 2 ^ 32)
    (hbody : BodyAt code a (itemsCode front).length x j e) (hle : j ≤ i) (hrest : i + rest.length = e) :
    Departs p code (Between a items) { cpu := c', eip := a + BitVec.ofNat 32 i }
        { cpu := c', eip := a + BitVec.ofNat 32 (itemsCode items).length } ↔
      x.loops = false ∧ rest = [] ∧ itemsCode behind = [] := by
  have hlength := length_items hitems
  by_cases hnil : rest = []
  · have hie : i = e := by
      rw [hnil] at hrest
      exact hrest
    rcases hbody.ends with ⟨hloops, hend⟩ | ⟨m, rel, hjump, hm, hcode, hland⟩
    · rw [hie, hend, departs_behind hitems hsize]
      exact ⟨fun h => ⟨hloops, hnil, h⟩, fun h => h.2.2⟩
    · -- the byte is that of the jump
      have hwide := (Item.jump_pos hjump).2
      have hbetween : Between a items (a + BitVec.ofNat 32 e) := by
        rw [between_iff (by omega) hsize]
        refine ⟨by omega, ?_⟩
        rw [hitems, hm, ownsAt_append, OwnsAt, if_pos (by omega)]
        exact fun hown => hown.2 m hjump ⟨le_rfl, by omega⟩
      have hstep := step_jump (p := p) (c := c') hcode
      rw [hland] at hstep
      rw [hie]
      have hnext : Departs p code (Between a items) { cpu := c', eip := a + BitVec.ofNat 32 e }
          { cpu := c', eip := a + BitVec.ofNat 32 (itemsCode items).length } ↔
          Departs p code (Between a items)
            { cpu := c'
              eip := a + BitVec.ofNat 32 (if x.loops then (itemsCode front).length
                else (itemsCode front).length + x.code.length) }
            { cpu := c', eip := a + BitVec.ofNat 32 (itemsCode items).length } :=
        ⟨fun h => h.next hbetween hstep, fun h => Departs.step hbetween hstep h⟩
      rw [hnext]
      cases hloops : x.loops with
      | false =>
        rw [if_neg (by decide), departs_behind hitems hsize]
        exact ⟨fun h => ⟨rfl, hnil, h⟩, fun h => h.2.2⟩
      | true =>
        rw [if_pos rfl]
        have hown : OwnsAt items ((itemsCode front).length + 0) := by
          rw [hitems]
          exact ownsAt_item (Item.owns_zero (by omega))
        constructor
        · exact fun h => absurd h (not_departs_owned hown (by omega) hsize)
        · exact fun h => absurd h.1 (by decide)
  · have hpos := length_pos_iff.mpr hnil
    have hown := hbody.owns i hle (by omega)
    have hlt := hown.1
    have hle' := hbody.le.1
    have howns : OwnsAt items i := by
      have hsame : (itemsCode front).length + (i - (itemsCode front).length) = i := by omega
      rw [hitems, ← hsame]
      exact ownsAt_item hown
    constructor
    · exact fun h => absurd h (not_departs_owned howns (by omega) hsize)
    · exact fun h => absurd h.2.1 hnil

end Landing

/-! ### The end of the program -/

theorem exitsWith_iff {e n v : Word} (hcode : CodeAt code e (emitEpilogue v)) (c : Cpu) :
    ExitsWith p code e c n ↔ v = n := by
  have hframe : Decodes [0x89, 0xE5, 0x5D] [.mov (.reg .ebp) (.reg .esp), .pop .ebp] :=
    Decodes.cons (b := [0x89, 0xE5]) (by decide) (fun _ => rfl)
      (Decodes.single (by decide) fun _ => rfl)
  have hebx : Decodes (emitMovEbxImm v) [.movImm .ebx v] := by
    refine Decodes.single (Nat.le_add_left 5 10) fun tail => ?_
    show some (Instr.plain (.movImm .ebx (joinWord _ _ _ _)), 5) = _
    rw [joinWord_byteOf]
    rfl
  have hall := (hframe.append (decodes_immediate 1)).append hebx
  have hint : CodeAt code (e + BitVec.ofNat 32 13) emitInt80 := hcode.right
  obtain ⟨c', hexec, heax, hebx'⟩ : ∃ c',
      execAll ([.mov (.reg .ebp) (.reg .esp), .pop .ebp] ++ [.movImm .eax 1] ++ [.movImm .ebx v]) c =
        some c' ∧ c'.regs .eax = 1 ∧ c'.regs .ebx = v := ⟨_, rfl, rfl, rfl⟩
  have hblock : Block p code e 13 c c' := Block.straight hall hcode.left (show 13 < 2 ^ 32 by decide) hexec
  constructor
  · rintro ⟨c₂, hdeparts, -, -, hn⟩
    have hsame : c₂ = c' := Block.unique hdeparts hblock
    rw [← hebx', ← hsame, hn]
  · rintro rfl
    exact ⟨c', hblock, hint, heax, hebx'⟩

end Machine

/-- A program ends as it should exactly where the `return` that it comes to is the last one that counts. -/
theorem return_iff {tokens : List Token} {fuel : Nat} {items : List Item} {s s' : Parser}
    (h : ReadsItems tokens fuel items s s') (hexit : s.exitCode = 0) {p : Platform}
    {code : Word → Byte} {a : Word} {c : Cpu} {o : Outcome}
    (hcode : CodeAt code a (itemsCode items ++ emitEpilogue s'.exitCode))
    (hsize : (itemsCode items).length < 2 ^ 32) (hrun : RunsTo p code a 0 items c o) :
    Turned tokens fuel s s' ∧ s'.gen.out = s.gen.out ++ itemsCode items ∧
      (RightEnd p code a items c o ↔ LastCounts items o) := by
  obtain ⟨hturned, hout, hlast⟩ := h.spec
  refine ⟨hturned, hout, ?_⟩
  rw [hexit] at hlast
  have harrives := hrun.arrives hcode.left (nil_append items).symm rfl
  rw [BitVec.add_zero] at harrives
  have hends := fun (n : Word) (c : Cpu) => exitsWith_iff (p := p) (n := n) hcode.right c
  rw [hlast] at hends
  cases o with
  | falls c' =>
    simp only [RightEnd, LastCounts]
    rw [hends]
    exact and_iff_right harrives
  | returns n c' place =>
    obtain ⟨hcomes, front, x, j, e, hitems, hloop, hbody, hle, hrest⟩ := harrives
    simp only [RightEnd, LastCounts]
    rw [hends, departs_return_iff hitems hsize hbody hle hrest, hloop]
    constructor
    · rintro ⟨-, ⟨hloops, hnil, hbehind⟩, hn⟩
      exact ⟨hn, hloops, hnil, hbehind⟩
    · rintro ⟨hn, hloops, hnil, hbehind⟩
      exact ⟨hcomes, ⟨hloops, hnil, hbehind⟩, hn⟩

section Trial

def trialReturns (m n : Int) : List Token :=
  [trialToken .tokReturn "return", trialNumber m, trialToken .tokSemicolon ";",
    trialToken .tokReturn "return", trialNumber n, trialToken .tokSemicolon ";", trialToken .tokEof ""]

def trialItems (m n : Int) : List Item := [.parts [.ret (BitVec.ofInt 32 m), .ret (BitVec.ofInt 32 n)]]

def trialPlace (n : Int) : Place :=
  { offset := 0
    loop := false
    rest := [.ret (BitVec.ofInt 32 n)]
    behind := [] }

theorem runsTo_trial (p : Platform) (code : Word → Byte) (a : Word) (m n : Int) (c : Cpu) :
    RunsTo p code a 0 (trialItems m n) c (.returns (BitVec.ofInt 32 m) c (trialPlace n)) :=
  RunsTo.ret EntersBody.parts Returned.here

theorem readsItems_trial (m n : Int) :
    ∃ s', ReadsItems (trialReturns m n) 20 (trialItems m n) (initialParser trialGen) s' ∧
      s'.exitCode = BitVec.ofInt 32 n := by
  have hfirst : ReturnsNumber (trialReturns m n) 0 (BitVec.ofInt 32 m) := ⟨rfl, _, rfl, rfl, rfl⟩
  have hsecond : ReturnsNumber (trialReturns m n) 3 (BitVec.ofInt 32 n) := ⟨rfl, _, rfl, rfl, rfl⟩
  exact ⟨_, ReadsItems.parts (ReadsParts.ret hfirst (parseTurn_return hfirst)
    (ReadsParts.ret hsecond (parseTurn_return hsecond) ReadsParts.nil)) ReadsItems.nil, rfl⟩

/-- Twice the same number. -/
theorem return_iff_trial : ∃ s', Turned (trialReturns 1 1) 20 (initialParser trialGen) s' ∧
      s'.gen.out = prologue ++ itemsCode (trialItems 1 1) ∧ (RightEnd
          { writable := fun _ => true
            syscall := fun _ => none }
          (placed (emitEpilogue 1) 0x08048089) 0x08048089 (trialItems 1 1) trialCpu
          (.returns 1 trialCpu (trialPlace 1)) ↔
        LastCounts (trialItems 1 1) (.returns 1 trialCpu (trialPlace 1))) := by
  obtain ⟨s', hreads, hexit⟩ := readsItems_trial 1 1
  refine ⟨s', return_iff hreads rfl ?_ (show 0 < 2 ^ 32 by decide) (runsTo_trial _ _ _ 1 1 _)⟩
  have hlength : (emitEpilogue 1).length ≤ 2 ^ 32 := show 15 ≤ 2 ^ 32 by decide
  rw [hexit]
  exact codeAt_placed hlength _

/-- `return 1; return 2;` exits with 2. -/
theorem not_rightEnd_trial :
    parseCTokens 20 (trialReturns 1 2) 4096 trialGen = some (prologue ++ emitEpilogue 2) ∧
      ∀ p c, RunsTo p (placed (prologue ++ emitEpilogue 2) 0x08048080) 0x08048089 0 (trialItems 1 2) c
          (.returns 1 c (trialPlace 2)) ∧
        ¬ RightEnd p (placed (prologue ++ emitEpilogue 2) 0x08048080) 0x08048089 (trialItems 1 2) c
          (.returns 1 c (trialPlace 2)) := by
  refine ⟨by decide, fun p c => ⟨runsTo_trial _ _ _ 1 2 c, fun hright => ?_⟩⟩
  have hlength : (prologue ++ emitEpilogue 2).length ≤ 2 ^ 32 := show 24 ≤ 2 ^ 32 by decide
  have hcode : CodeAt (placed (prologue ++ emitEpilogue 2) 0x08048080) 0x08048080
      (prologue ++ emitEpilogue 2) := codeAt_placed hlength _
  have hend : CodeAt (placed (prologue ++ emitEpilogue 2) 0x08048080) 0x08048089 (emitEpilogue 2) :=
    hcode.right
  have hexits : ExitsWith p (placed (prologue ++ emitEpilogue 2) 0x08048080)
      (0x08048089 + BitVec.ofNat 32 0) c 1 := hright.2.2
  rw [BitVec.add_zero, exitsWith_iff hend] at hexits
  cases hexits

end Trial

end JexOs.Tcc
