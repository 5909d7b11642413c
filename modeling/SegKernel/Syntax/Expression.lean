import SegKernel.Syntax.Literal
import SegKernel.Seg.Basic

/-! The syntax of scalar expressions. Infix operators associate to the left and bind by level; a
    higher level binds tighter. -/

namespace SegKernel.Syntax
open SegKernel.Syntax.Parser

/-- An infix operator: its symbol, the character that must not follow it, and what it builds. -/
structure InfixOp where
  level : Nat
  symbol : String
  notBefore : String := ""
  make : Exp → Exp → Exp

/-- The infix operators, the loosest first. -/
def infixOps : List InfixOp := [
  { level := 0, symbol := "||", make := .binary .logOr },
  { level := 1, symbol := "&&", make := .binary .logAnd },
  { level := 2, symbol := "==", make := .compare .eq },
  { level := 2, symbol := "!=", make := .compare .ne },
  { level := 2, symbol := "<=", make := .compare .le },
  { level := 2, symbol := ">=", make := .compare .ge },
  { level := 2, symbol := "<", notBefore := "<", make := .compare .lt },
  { level := 2, symbol := ">", notBefore := ">", make := .compare .gt },
  { level := 3, symbol := "|", notBefore := "|", make := .binary .or },
  { level := 3, symbol := "^", make := .binary .xor },
  { level := 4, symbol := "&", notBefore := "&", make := .binary .and },
  { level := 5, symbol := "<<", make := .binary .shl },
  { level := 5, symbol := ">>", make := .binary .shr },
  { level := 6, symbol := "+", make := .binary .add },
  { level := 6, symbol := "-", make := .binary .sub },
  { level := 7, symbol := "*", make := .binary .mul },
  { level := 7, symbol := "/", make := .binary .div },
  { level := 7, symbol := "%", make := .binary .mod }]

/-- The level of the operands of prefix operators, above all infix operators. -/
def tightest : Nat := 9

/-- Reads an infix operator and its right operand, which binds tighter than the operator. `self`
    reads an expression whose infix operators have at least the given level. -/
def InfixOp.parse (self : Nat → Parser Exp) (x : Exp) (op : InfixOp) : Parser Exp := do
  skip
  token op.symbol
  if op.notBefore ≠ "" then notAhead (token op.notBefore)
  skip
  let y ← self (op.level + 1)
  return op.make x y

/-- Reads at most `fuel` infix operators of at least the given level, with their right operands. -/
def infixTail (self : Nat → Parser Exp) (min : Nat) : (fuel : Nat) → Exp → Parser Exp
  | 0, x => pure x
  | n + 1, x =>
    (do
      let y ← firstOf ((infixOps.filter (min ≤ ·.level)).map (InfixOp.parse self x))
      infixTail self min n y) <|> pure x

/-- Reads a parenthesis with `p` in it. -/
def parenthesized {α : Type} (p : Parser α) : Parser α := do
  token "("
  skip
  let a ← p
  skip
  token ")"
  return a

/-- Reads a function name and its arguments in parentheses. -/
def call {α : Type} (name : String) (p : Parser α) : Parser α := do
  token name
  skip
  parenthesized p

/-- Reads an operand: a prefix operator with its operand, a call, a literal or a variable. -/
def operand (self : Nat → Parser Exp) : Parser Exp :=
  let whole := self 0
  firstOf [
    (do token "-"; skip; return .unary .neg (← self tightest)),
    (do token "!"; skip; return .unary .not (← self tightest)),
    parenthesized whole,
    call "min" (do let x ← whole; mark ","; return .binary .min x (← whole)),
    call "max" (do let x ← whole; mark ","; return .binary .max x (← whole)),
    call "abs" (do return .unary .abs (← whole)),
    call "select" (do
      let c ← whole
      mark ","
      let t ← whole
      mark ","
      return .select c t (← whole)),
    (do
      token "bitcast"
      mark "<"
      let type ← scalarType
      mark ">"
      return .bitcast type (← parenthesized whole)),
    (do
      let type ← scalarType
      skip
      return .convert type (← parenthesized whole)),
    (do return .const (← literal)),
    (do return .var (← identifier))]

/-- Reads an expression whose infix operators have at least the given level. The fuel bounds the depth
    of nesting; each level of it reads a character. -/
def expressionFrom : (fuel : Nat) → (min : Nat) → Parser Exp
  | 0, _ => fail
  | n + 1, min => do
    let x ← operand (expressionFrom n)
    infixTail (expressionFrom n) min n x

/-- Reads an expression. -/
def expression : Parser Exp := withFuel fun n => expressionFrom n 0

/-- Reads a constant or a variable. -/
def simpleOperand : Parser Operand :=
  (do return .const (← literal)) <|> (do return .var (← identifier))

end SegKernel.Syntax
