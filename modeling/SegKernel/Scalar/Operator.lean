import SegKernel.Scalar.Basic

/-! The operators of scalar expressions, with the symbols that print them and the words that name
    them in messages. -/

namespace SegKernel

/-- Operators of two operands of one type. `logAnd` and `logOr` evaluate their second operand only
    when the first one does not decide. -/
inductive BinaryOp
  | add
  | sub
  | mul
  | div
  | mod
  | min
  | max
  | and
  | or
  | xor
  | shl
  | shr
  | logAnd
  | logOr
deriving DecidableEq

namespace BinaryOp

/-- All operators, in the order in which tables list them. -/
def all : List BinaryOp := [add, sub, mul, div, mod, min, max, and, or, xor, shl, shr, logAnd, logOr]

/-- The operators that do not depend on the order of their operands. -/
def isCommutative : BinaryOp → Bool
  | sub | div | mod | shl | shr => false
  | add | mul | min | max | and | or | xor | logAnd | logOr => true

def symbol : BinaryOp → String
  | add => "+"
  | sub => "-"
  | mul => "*"
  | div => "/"
  | mod => "%"
  | min => "min"
  | max => "max"
  | and => "&"
  | or => "|"
  | xor => "^"
  | shl => "<<"
  | shr => ">>"
  | logAnd => "&&"
  | logOr => "||"

/-- The name of the operator in messages. -/
def label : BinaryOp → String
  | add => "Add"
  | sub => "Sub"
  | mul => "Mul"
  | div => "Div"
  | mod => "Mod"
  | min => "Min"
  | max => "Max"
  | and => "And"
  | or => "Or"
  | xor => "Xor"
  | shl => "Shl"
  | shr => "Shr"
  | logAnd => "LogAnd"
  | logOr => "LogOr"

theorem mem_all (op : BinaryOp) : op ∈ all := by cases op <;> decide

end BinaryOp

inductive Comparison
  | eq
  | ne
  | lt
  | le
  | gt
  | ge
deriving DecidableEq

namespace Comparison

def symbol : Comparison → String
  | eq => "=="
  | ne => "!="
  | lt => "<"
  | le => "<="
  | gt => ">"
  | ge => ">="

/-- Whether the comparison holds of two operands in the given order; operands without an order are
    only unequal. -/
def holds : Comparison → Option Ordering → Bool
  | eq, o => o == some .eq
  | ne, o => o != some .eq
  | lt, o => o == some .lt
  | le, o => o == some .lt || o == some .eq
  | gt, o => o == some .gt
  | ge, o => o == some .gt || o == some .eq

end Comparison

/-- `not` negates a condition and complements the bits of an integer. -/
inductive UnaryOp
  | not
  | neg
  | abs
deriving DecidableEq

/-- The name of the operator in messages. -/
def UnaryOp.label : UnaryOp → String
  | not => "Not"
  | neg => "Neg"
  | abs => "Abs"

end SegKernel
