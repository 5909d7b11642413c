import SegKernel.Syntax.Lexeme
import SegKernel.Scalar.Decimal

/-! Literals: Booleans and numbers, whose type is given by a suffix or by the declaration that they
    belong to. -/

namespace SegKernel.Syntax
open SegKernel.Syntax.Parser

/-- The parts of a number: sign, digits before and after the point, and suffix. -/
structure Numeral where
  negative : Bool
  whole : List Char
  /-- The digits after the point, if there is a point. -/
  fraction : Option (List Char)
  suffix : Option ScalarType
deriving DecidableEq

namespace Numeral

/-- The text of the suffix at the start of a text, and its type. -/
def suffixAt (cs : List Char) : Option (List Char × ScalarType) :=
  match cs with
  | 'i' :: '3' :: '2' :: _ => some (['i', '3', '2'], .i32)
  | 'i' :: '6' :: '4' :: _ => some (['i', '6', '4'], .i64)
  | 'u' :: '3' :: '2' :: _ => some (['u', '3', '2'], .u32)
  | 'u' :: '6' :: '4' :: _ => some (['u', '6', '4'], .u64)
  | 'f' :: '3' :: '2' :: _ => some (['f', '3', '2'], .f32)
  | 'f' :: '6' :: '4' :: _ => some (['f', '6', '4'], .f64)
  | _ => none

/-- The digits after the point at the start of a text. -/
def fractionAt (cs : List Char) : Option (List Char) :=
  match cs with
  | '.' :: cs =>
    let digits := cs.takeWhile isDigit
    if digits.isEmpty then none else some digits
  | _ => none

/-- The number at the start of a text, and what follows it. -/
def at? (cs : List Char) : Option (Numeral × List Char) :=
  let (negative, cs) := match cs with
    | '-' :: cs => (true, cs)
    | cs => (false, cs)
  let whole := cs.takeWhile isDigit
  let cs := cs.drop whole.length
  let fraction := fractionAt cs
  let cs := match fraction with
    | some digits => cs.drop (digits.length + 1)
    | none => cs
  let suffix := suffixAt cs
  let cs := match suffix with
    | some (text, _) => cs.drop text.length
    | none => cs
  if whole.isEmpty then none else some (⟨negative, whole, fraction, suffix.map (·.2)⟩, cs)

/-- The type of a number: that of the suffix, else the expected one, else `f64` with a point and `i64`
    without. -/
def typeOf (n : Numeral) (expected : Option ScalarType) : Except String ScalarType :=
  match n.suffix, expected with
  | some s, some e => if s = e then .ok s else .error "literal does not match the declared type"
  | some s, none => .ok s
  | none, some e => .ok e
  | none, none => .ok (if n.fraction.isSome then .f64 else .i64)

/-- The integer that the digits before the point denote. -/
def integer (n : Numeral) : Int :=
  let magnitude : Int := ofDecimalDigits n.whole
  if n.negative then -magnitude else magnitude

/-- The integer, if it lies between the ends of a type. A type without sign has no numbers with one. -/
def within (n : Numeral) (signed : Bool) (lo hi : Int) (type : ScalarType) : Except String Int :=
  if (signed ∨ n.negative = false) ∧ lo ≤ n.integer ∧ n.integer ≤ hi then .ok n.integer
  else .error (type.name ++ " literal out of range")

/-- The pattern of the nearest number of a floating-point format. -/
def float (n : Numeral) (f : FloatFormat) : Nat :=
  let fraction := n.fraction.getD []
  f.ofDecimal n.negative (ofDecimalDigits (n.whole ++ fraction)) fraction.length

/-- The value of a number where a type may be expected. -/
def value (n : Numeral) (expected : Option ScalarType) : Except String Value := do
  let type ← n.typeOf expected
  if n.fraction.isSome ∧ ¬ type.isFloat then throw "fractional literal of an integer type"
  match type with
  | .bool => .error "numeric literal of type bool"
  | .i32 => return .i32 (Int32.ofInt (← n.within true Int32.minValue.toInt Int32.maxValue.toInt .i32))
  | .i64 => return .i64 (Int64.ofInt (← n.within true Int64.minValue.toInt Int64.maxValue.toInt .i64))
  | .u32 => return .u32 (UInt32.ofInt (← n.within false 0 (UInt32.size - 1) .u32))
  | .u64 => return .u64 (UInt64.ofInt (← n.within false 0 (UInt64.size - 1) .u64))
  | .f32 => return .f32 (n.float .single).toUInt32
  | .f64 => return .f64 (n.float .double).toUInt64

end Numeral

/-- Reads a number that is not the beginning of a longer word. -/
def numeral : Parser Numeral := fun c =>
  match Numeral.at? c.rest with
  | some (n, rest) =>
    if (rest.head?.map isIdentChar).getD false then ⟨none, .single c (.named "number")⟩
    else ⟨some (n, c.advance (c.rest.take (c.rest.length - rest.length))), {}⟩
  | none => ⟨none, .single c (.named "number")⟩

def boolean : Parser Bool :=
  (do word "true"; return true) <|> (do word "false"; return false)

/-- Reads a literal whose type stands in its suffix or follows from its form. -/
def literal : Parser Value :=
  (do return .bool (← boolean)) <|> (do accept ((← numeral).value none))

/-- Reads a literal of a declared type. -/
def typedLiteral (type : ScalarType) : Parser Value :=
  (do
    let b ← (do token "true"; return true) <|> (do token "false"; return false)
    wordEnd
    accept (if type = .bool then .ok (.bool b) else .error "literal of the declared type")) <|>
  (do accept ((← numeral).value (some type)))

end SegKernel.Syntax
