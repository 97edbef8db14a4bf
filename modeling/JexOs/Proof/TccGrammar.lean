import JexOs.TccExpr

/-!
# Expressions of C

The expressions the compiler is for, as trees, with the token strings that C derives for them and the values C
gives them. A value that C leaves undefined, or to the implementation, is none.
-/

namespace JexOs.Tcc

open X86 (Word)

inductive UnOp where
  | plus | neg | lognot | not
deriving DecidableEq, Repr

inductive BinOp where
  | mul | div | mod | add | sub | shl | shr | lt | gt | le | ge | eq | ne
deriving DecidableEq, Repr

inductive StepOp where
  | inc | dec
deriving DecidableEq, Repr

inductive Expr where
  | num (n : Int)
  | var (x : CString)
  | pre (op : StepOp) (x : CString)
  | post (op : StepOp) (x : CString)
  | paren (e : Expr)
  | unary (op : UnOp) (e : Expr)
  | binary (op : BinOp) (l r : Expr)
deriving DecidableEq, Repr

def UnOp.token : UnOp → TokenType
  | .plus => .tokPlus
  | .neg => .tokMinus
  | .lognot => .tokLognot
  | .not => .tokNot

def StepOp.token : StepOp → TokenType
  | .inc => .tokPlusplus
  | .dec => .tokMinusminus

def BinOp.token : BinOp → TokenType
  | .mul => .tokStar
  | .div => .tokSlash
  | .mod => .tokPercent
  | .add => .tokPlus
  | .sub => .tokMinus
  | .shl => .tokShl
  | .shr => .tokShr
  | .lt => .tokLt
  | .gt => .tokGt
  | .le => .tokLe
  | .ge => .tokGe
  | .eq => .tokEq
  | .ne => .tokNeq

/-- How tightly the operators of C bind, from equality to multiplication. -/
def BinOp.level : BinOp → Nat
  | .eq | .ne => 1
  | .lt | .gt | .le | .ge => 2
  | .shl | .shr => 3
  | .add | .sub => 4
  | .mul | .div | .mod => 5

/-- The level of an operand that needs no parentheses under any operator. -/
def unaryLevel : Nat := 6

def Expr.level : Expr → Nat
  | .binary op _ _ => op.level
  | _ => unaryLevel

/-- The tokens are an expression, and this is its tree. An operand of a binary operator binds more
tightly than the operator, on the left at least as tightly. -/
inductive Derives : Expr → List Token → Prop where
  | num {t : Token} (htype : t.type = .tokNumber) : Derives (.num t.intVal) [t]
  | var {t : Token} (htype : t.type = .tokIdent) : Derives (.var t.str) [t]
  | pre {t x : Token} (op : StepOp) (hop : t.type = op.token) (htype : x.type = .tokIdent) :
      Derives (.pre op x.str) [t, x]
  | post {x t : Token} (op : StepOp) (htype : x.type = .tokIdent) (hop : t.type = op.token) :
      Derives (.post op x.str) [x, t]
  | paren {e : Expr} {ts : List Token} {lp rp : Token} (hlp : lp.type = .tokLparen)
      (he : Derives e ts) (hrp : rp.type = .tokRparen) : Derives (.paren e) (lp :: ts ++ [rp])
  | unary {e : Expr} {ts : List Token} {t : Token} (op : UnOp) (hop : t.type = op.token)
      (he : Derives e ts) (hlevel : e.level = unaryLevel) : Derives (.unary op e) (t :: ts)
  | binary {l r : Expr} {ts ts' : List Token} {t : Token} (op : BinOp) (hl : Derives l ts)
      (hleft : op.level ≤ l.level) (hop : t.type = op.token) (hr : Derives r ts')
      (hright : op.level < r.level) : Derives (.binary op l r) (ts ++ t :: ts')

/-- The values of the variables. That of a `char` is the value it has as an `int`. -/
abbrev Store := CString → Word

/-- The conversion of an assignment to a variable of the type. -/
def convert (type : SymType) (v : Word) : Word :=
  if type = .char then (v.setWidth 8).signExtend 32 else v

def StepOp.apply (v : Word) : StepOp → Word
  | .inc => v + 1
  | .dec => v - 1

def truth (b : Bool) : Word := if b then 1 else 0

def UnOp.apply (v : Word) : UnOp → Word
  | .plus => v
  | .neg => -v
  | .lognot => truth (v == 0)
  | .not => ~~~v

def BinOp.apply (a b : Word) : BinOp → Option Word
  | .mul => some (a * b)
  | .div => if b = 0 ∨ a = BitVec.intMin 32 ∧ b = -1 then none else some (a.sdiv b)
  | .mod => if b = 0 ∨ a = BitVec.intMin 32 ∧ b = -1 then none else some (a.srem b)
  | .add => some (a + b)
  | .sub => some (a - b)
  | .shl => if b.toNat < 32 then some (a <<< b.toNat) else none
  | .shr => if b.toNat < 32 ∧ 0 ≤ a.toInt then some (a >>> b.toNat) else none
  | .lt => some (truth (a.toInt < b.toInt))
  | .gt => some (truth (b.toInt < a.toInt))
  | .le => some (truth (a.toInt ≤ b.toInt))
  | .ge => some (truth (b.toInt ≤ a.toInt))
  | .eq => some (truth (a = b))
  | .ne => some (truth (a ≠ b))

def symbolOf (tab : Symtab) (x : CString) : Symbol := (symtabLookup tab x).getD emptySymbol

def Expr.eval (tab : Symtab) : Expr → Store → Option (Word × Store)
  | .num n, σ => some (BitVec.ofInt 32 n, σ)
  | .var x, σ => some (σ x, σ)
  | .pre op x, σ =>
    let v := convert (symbolOf tab x).type (op.apply (σ x))
    some (v, Function.update σ x v)
  | .post op x, σ =>
    some (σ x, Function.update σ x (convert (symbolOf tab x).type (op.apply (σ x))))
  | .paren e, σ => e.eval tab σ
  | .unary op e, σ => (e.eval tab σ).map fun (v, σ) => (op.apply v, σ)
  | .binary op l r, σ => do
      let (a, σ) ← l.eval tab σ
      let (b, σ) ← r.eval tab σ
      let v ← op.apply a b
      some (v, σ)

def Expr.Declared (tab : Symtab) : Expr → Prop
  | .num _ => True
  | .var x | .pre _ x | .post _ x =>
    ∃ sym, symtabLookup tab x = some sym ∧ (sym.type = .int ∨ sym.type = .char)
  | .paren e | .unary _ e => e.Declared tab
  | .binary _ l r => l.Declared tab ∧ r.Declared tab

end JexOs.Tcc
