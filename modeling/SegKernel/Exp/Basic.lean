import SegKernel.Scalar.Operator

/-! Scalar expressions and the constructors that build them. A constructor folds arithmetic on `i64`
    constants, the type of all indices and sizes, and drops neutral operands, so that a size known
    when code is built stays a constant. -/

namespace SegKernel

inductive Exp
  | var (name : Ident)
  | const (v : Value)
  | binary (op : BinaryOp) (x y : Exp)
  | compare (op : Comparison) (x y : Exp)
  | unary (op : UnaryOp) (x : Exp)
  | convert (type : ScalarType) (x : Exp)
  | bitcast (type : ScalarType) (x : Exp)
  | select (condition ifTrue ifFalse : Exp)
deriving DecidableEq

namespace Exp

def int (v : Int64) : Exp := const (.i64 v)
def i32 (v : Int32) : Exp := const (.i32 v)
def bool (b : Bool) : Exp := const (.bool b)

/-- The value of an `i64` constant. -/
def int? : Exp → Option Int64
  | const (.i64 v) => some v
  | _ => none

def bool? : Exp → Option Bool
  | const (.bool b) => some b
  | _ => none

/-! ### Folding -/

/-- An integer that fits 64 bits. -/
def inRange (i : Int) : Option Int64 :=
  if Int64.minValue.toInt ≤ i ∧ i ≤ Int64.maxValue.toInt then some (Int64.ofInt i) else none

/-- The value of an operator on constants, where it is an integer that does not wrap around. -/
def foldInts (op : BinaryOp) (a b : Int64) : Option Int64 :=
  match op with
  | .add => inRange (a.toInt + b.toInt)
  | .sub => inRange (a.toInt - b.toInt)
  | .mul => inRange (a.toInt * b.toInt)
  | .div => if b = 0 then none else inRange (a.toInt.tdiv b.toInt)
  | .mod => if b = 0 ∨ (a = Int64.minValue ∧ b = -1) then none else inRange (a.toInt.tmod b.toInt)
  | .min => some (min a b)
  | .max => some (max a b)
  | _ => none

/-- The operand that an operator returns unchanged because the other one is its unit. -/
def unitOperand (op : BinaryOp) (x y : Exp) : Option Exp :=
  match op with
  | .add => if x.int? = some 0 then some y else if y.int? = some 0 then some x else none
  | .sub => if y.int? = some 0 then some x else none
  | .mul => if x.int? = some 1 then some y else if y.int? = some 1 then some x else none
  | .div => if y.int? = some 1 then some x else none
  | _ => none

def folded? (op : BinaryOp) (x y : Exp) : Option Int64 :=
  match x.int?, y.int? with
  | some a, some b => foldInts op a b
  | _, _ => none

/-- Applies a binary operator. -/
def apply (op : BinaryOp) (x y : Exp) : Exp :=
  match folded? op x y with
  | some v => int v
  | none => (unitOperand op x y).getD (binary op x y)

/-- Compares two expressions; the comparison of two `i64` constants is decided. -/
def test (op : Comparison) (x y : Exp) : Exp :=
  match x.int?, y.int? with
  | some a, some b => bool (op.holds (some (Ord.compare a.toInt b.toInt)))
  | _, _ => compare op x y

instance : Add Exp := ⟨apply .add⟩
instance : Sub Exp := ⟨apply .sub⟩
instance : Mul Exp := ⟨apply .mul⟩
instance : Div Exp := ⟨apply .div⟩
instance : Mod Exp := ⟨apply .mod⟩

def minimum (x y : Exp) : Exp := apply .min x y
def maximum (x y : Exp) : Exp := apply .max x y
def bitAnd (x y : Exp) : Exp := apply .and x y
def lt (x y : Exp) : Exp := test .lt x y
def le (x y : Exp) : Exp := test .le x y
def gt (x y : Exp) : Exp := test .gt x y
def ge (x y : Exp) : Exp := test .ge x y
def equals (x y : Exp) : Exp := test .eq x y
def differs (x y : Exp) : Exp := test .ne x y

/-- The quotient rounded up, for operands that are not negative. -/
def divUp (x y : Exp) : Exp := (x + y - int 1) / y

/-- Conjunction; a constant operand decides it or is dropped. -/
def both (x y : Exp) : Exp :=
  match x.bool?, y.bool? with
  | some true, _ => y
  | _, some true => x
  | some false, _ => bool false
  | _, some false => bool false
  | none, none => binary .logAnd x y

/-- Disjunction; a constant operand decides it or is dropped. -/
def either (x y : Exp) : Exp :=
  match x.bool?, y.bool? with
  | some false, _ => y
  | _, some false => x
  | some true, _ => bool true
  | _, some true => bool true
  | none, none => binary .logOr x y

/-- The conjunction of all conditions, from left to right. -/
def all (conditions : List Exp) : Exp := conditions.foldl both (bool true)

/-- Negation; two negations cancel. -/
def negation : Exp → Exp
  | const (.bool b) => bool !b
  | unary .not x => x
  | x => unary .not x

def choose (condition ifTrue ifFalse : Exp) : Exp :=
  match condition.bool? with
  | some true => ifTrue
  | some false => ifFalse
  | none => select condition ifTrue ifFalse

/-- Converts to a type; an `i64` constant already is of that type. -/
def toType (type : ScalarType) (x : Exp) : Exp :=
  match x.int? with
  | some v => if type = .i64 then int v else convert type x
  | none => convert type x

/-- The product of all factors, from left to right. -/
def product (factors : List Exp) : Exp := factors.foldl (· * ·) (int 1)

/-- The row-major position of `indices` in an array of extents `dims`. -/
def flatten (dims indices : List Exp) : Exp :=
  (dims.zip indices).foldl (fun position (d, i) => position * d + i) (int 0)

/-! ### Variables -/

/-- Replaces all variables for which `σ` has an expression, at the same time. -/
def substitute (σ : Ident → Option Exp) : Exp → Exp
  | var name => (σ name).getD (var name)
  | const v => const v
  | binary op x y => binary op (x.substitute σ) (y.substitute σ)
  | compare op x y => compare op (x.substitute σ) (y.substitute σ)
  | unary op x => unary op (x.substitute σ)
  | convert type x => convert type (x.substitute σ)
  | bitcast type x => bitcast type (x.substitute σ)
  | select c t e => select (c.substitute σ) (t.substitute σ) (e.substitute σ)

/-- All occurrences of variables, from left to right. -/
def occurrences : Exp → List Ident
  | var name => [name]
  | const _ => []
  | binary _ x y | compare _ x y => x.occurrences ++ y.occurrences
  | unary _ x | convert _ x | bitcast _ x => x.occurrences
  | select c t e => c.occurrences ++ t.occurrences ++ e.occurrences

/-- The variables in the order of their first occurrences. -/
def vars (x : Exp) : List Ident := x.occurrences.eraseDups

end Exp
end SegKernel
