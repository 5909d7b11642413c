import SegKernel.Exp.Basic
import SegKernel.Scalar.Arithmetic

/-! Evaluation of expressions. Connectives and selections evaluate only the operands they need, so a
    guard such as `0 < i && flag` is safe where `flag` is not defined. -/

namespace SegKernel

/-- The values of the variables in scope. -/
abbrev Scope := Ident → Option Value

namespace Exp

/-- The value of an expression, or the first fault from left to right. -/
def eval (scope : Scope) : Exp → Except Fault Value
  | var name =>
    match scope name with
    | some v => .ok v
    | none => .error (.unknownVariable name)
  | const v => .ok v
  | binary op x y =>
    match op, x.eval scope with
    | _, .error fault => .error fault
    | .logAnd, .ok (.bool true) | .logOr, .ok (.bool false) =>
      match y.eval scope with
      | .ok (.bool b) => .ok (.bool b)
      | .ok v => .error (.typeMismatch (.connective op v.type))
      | .error fault => .error fault
    | .logAnd, .ok (.bool false) => .ok (.bool false)
    | .logOr, .ok (.bool true) => .ok (.bool true)
    | .logAnd, .ok v | .logOr, .ok v => .error (.typeMismatch (.connective op v.type))
    | _, .ok v =>
      match y.eval scope with
      | .ok w => Value.binary op v w
      | .error fault => .error fault
  | compare op x y => do Value.comparison op (← x.eval scope) (← y.eval scope)
  | unary op x => do Value.unary op (← x.eval scope)
  | convert type x => do return Value.convert type (← x.eval scope)
  | bitcast type x => do Value.bitcast type (← x.eval scope)
  | select c t e =>
    match c.eval scope with
    | .ok (.bool true) => t.eval scope
    | .ok (.bool false) => e.eval scope
    | .ok v => .error (.typeMismatch (.selector v.type))
    | .error fault => .error fault

/-- The value of an index or a size. -/
def evalInt (scope : Scope) (x : Exp) : Except Fault Int64 :=
  match x.eval scope with
  | .ok (.i64 i) => .ok i
  | .ok v => .error (.typeMismatch (.index v.type))
  | .error fault => .error fault

/-- The value of a condition. -/
def evalBool (scope : Scope) (x : Exp) : Except Fault Bool :=
  match x.eval scope with
  | .ok (.bool b) => .ok b
  | .ok v => .error (.typeMismatch (.condition v.type))
  | .error fault => .error fault

end Exp
end SegKernel
