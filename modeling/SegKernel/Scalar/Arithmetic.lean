import SegKernel.Scalar.FloatFormat
import SegKernel.Device.Fault

/-! The meaning of the operators on values. Integers wrap around, shifts take their amount modulo
    the width, division truncates and fails on a zero divisor. -/

namespace SegKernel
namespace Value

/-- The operation of a fixed-width integer type, given by the type's own operations. -/
def integerOp {α : Type} [Add α] [Sub α] [Mul α] [Div α] [Mod α] [Min α] [Max α] [AndOp α] [OrOp α] [XorOp α]
    [ShiftLeft α] [ShiftRight α] [OfNat α 0] [DecidableEq α] (op : BinaryOp) (a b : α) : Except Fault α :=
  match op with
  | .add => .ok (a + b)
  | .sub => .ok (a - b)
  | .mul => .ok (a * b)
  | .div => if b = 0 then .error .divisionByZero else .ok (a / b)
  | .mod => if b = 0 then .error .divisionByZero else .ok (a % b)
  | .min => .ok (min a b)
  | .max => .ok (max a b)
  | .and => .ok (a &&& b)
  | .or => .ok (a ||| b)
  | .xor => .ok (a ^^^ b)
  | .shl => .ok (a <<< b)
  | .shr => .ok (a >>> b)
  | .logAnd | .logOr => .error (.typeMismatch (.integers op))

def floatOp (f : FloatFormat) (op : BinaryOp) (a b : Nat) : Except Fault Nat :=
  match op with
  | .add => .ok (f.add a b)
  | .sub => .ok (f.sub a b)
  | .mul => .ok (f.mul a b)
  | .div => .ok (f.div a b)
  | .mod => .ok (f.mod a b)
  | .min => .ok (f.min a b)
  | .max => .ok (f.max a b)
  | _ => .error (.typeMismatch (.floats op))

def booleanOp (op : BinaryOp) (a b : Bool) : Except Fault Bool :=
  match op with
  | .logAnd | .and | .min => .ok (a && b)
  | .logOr | .or | .max => .ok (a || b)
  | .xor => .ok (a ^^ b)
  | _ => .error (.typeMismatch (.booleans op))

/-- Applies an operator to two values of one type. -/
def binary (op : BinaryOp) : Value → Value → Except Fault Value
  | bool a, bool b => (booleanOp op a b).map bool
  | i32 a, i32 b => (integerOp op a b).map i32
  | i64 a, i64 b => (integerOp op a b).map i64
  | u32 a, u32 b => (integerOp op a b).map u32
  | u64 a, u64 b => (integerOp op a b).map u64
  | f32 a, f32 b => (floatOp .single op a.toNat b.toNat).map fun n => f32 n.toUInt32
  | f64 a, f64 b => (floatOp .double op a.toNat b.toNat).map fun n => f64 n.toUInt64
  | x, y => .error (.typeMismatch (.operands op x.type y.type))

/-- The order of two values of one type; `none` inside when one is a NaN. -/
def ordering : Value → Value → Except Fault (Option Ordering)
  | bool a, bool b => .ok (some (compare a b))
  | i32 a, i32 b => .ok (some (compare a.toInt b.toInt))
  | i64 a, i64 b => .ok (some (compare a.toInt b.toInt))
  | u32 a, u32 b => .ok (some (compare a.toNat b.toNat))
  | u64 a, u64 b => .ok (some (compare a.toNat b.toNat))
  | f32 a, f32 b => .ok (FloatFormat.single.compare a.toNat b.toNat)
  | f64 a, f64 b => .ok (FloatFormat.double.compare a.toNat b.toNat)
  | x, y => .error (.typeMismatch (.compared x.type y.type))

def comparison (op : Comparison) (x y : Value) : Except Fault Value :=
  (ordering x y).map fun o => bool (op.holds o)

def unary (op : UnaryOp) (x : Value) : Except Fault Value :=
  match op, x with
  | .not, bool b => .ok (bool !b)
  | .not, i32 a => .ok (i32 (~~~a))
  | .not, i64 a => .ok (i64 (~~~a))
  | .not, u32 a => .ok (u32 (~~~a))
  | .not, u64 a => .ok (u64 (~~~a))
  | .neg, i32 a => .ok (i32 (-a))
  | .neg, i64 a => .ok (i64 (-a))
  | .neg, f32 a => .ok (f32 (FloatFormat.single.neg a.toNat).toUInt32)
  | .neg, f64 a => .ok (f64 (FloatFormat.double.neg a.toNat).toUInt64)
  | .abs, i32 a => .ok (i32 (if a < 0 then -a else a))
  | .abs, i64 a => .ok (i64 (if a < 0 then -a else a))
  | .abs, u32 _ | .abs, u64 _ => .ok x
  | .abs, f32 a => .ok (f32 (FloatFormat.single.abs a.toNat).toUInt32)
  | .abs, f64 a => .ok (f64 (FloatFormat.double.abs a.toNat).toUInt64)
  | _, _ => .error (.typeMismatch (.operand op x.type))

/-- The value of an integer in a type: wrapped into an integer type, rounded into a float. -/
def ofInt (type : ScalarType) (i : Int) : Value :=
  match type with
  | .bool => bool (i != 0)
  | .i32 => i32 (Int32.ofInt i)
  | .i64 => i64 (Int64.ofInt i)
  | .u32 => u32 (UInt32.ofInt i)
  | .u64 => u64 (UInt64.ofInt i)
  | .f32 => f32 (FloatFormat.single.ofInt i).toUInt32
  | .f64 => f64 (FloatFormat.double.ofInt i).toUInt64

/-- The value of a double-precision pattern in a type: truncated and clamped into an integer type. -/
def ofDouble (type : ScalarType) (bits : Nat) : Value :=
  let clamp (lo hi : Int) : Int := FloatFormat.double.toIntBetween lo hi bits
  match type with
  | .bool => bool (FloatFormat.double.isNonzero bits)
  | .i32 => i32 (Int32.ofInt (clamp Int32.minValue.toInt Int32.maxValue.toInt))
  | .i64 => i64 (Int64.ofInt (clamp Int64.minValue.toInt Int64.maxValue.toInt))
  | .u32 => u32 (UInt32.ofInt (clamp 0 (UInt32.size - 1)))
  | .u64 => u64 (UInt64.ofInt (clamp 0 (UInt64.size - 1)))
  | .f32 => f32 (FloatFormat.double.toFormat .single bits).toUInt32
  | .f64 => f64 bits.toUInt64

/-- Conversion between types. A float of either width goes through double precision. -/
def convert (type : ScalarType) : Value → Value
  | bool b => ofInt type (if b then 1 else 0)
  | i32 v => ofInt type v.toInt
  | i64 v => ofInt type v.toInt
  | u32 v => ofInt type v.toNat
  | u64 v => ofInt type v.toNat
  | f32 bits => ofDouble type (FloatFormat.single.toFormat .double bits.toNat)
  | f64 bits => ofDouble type bits.toNat

/-- Reads the bits of a value as another type of the same width. -/
def bitcast (type : ScalarType) (x : Value) : Except Fault Value :=
  if type.bitWidth = x.type.bitWidth then .ok (ofBits type x.toBits)
  else .error (.typeMismatch (.cast x.type type))

end Value
end SegKernel
