/-! The scalar types of kernel code, their values, and the bits that represent a value in memory.
    A floating-point value is kept as its bit pattern, so equality of values is equality of types
    and patterns: two zeros of opposite sign differ and a NaN equals itself. -/

namespace SegKernel

/-- The name of a variable, an array or a kernel. -/
abbrev Ident := String

inductive ScalarType
  | bool
  | i32
  | i64
  | u32
  | u64
  | f32
  | f64
deriving DecidableEq

namespace ScalarType

/-- All types, in the order in which tables list them. -/
def all : List ScalarType := [bool, i32, i64, u32, u64, f32, f64]

def name : ScalarType → String
  | bool => "bool"
  | i32 => "i32"
  | i64 => "i64"
  | u32 => "u32"
  | u64 => "u64"
  | f32 => "f32"
  | f64 => "f64"

/-- The width of an element in memory. A Boolean takes a whole byte. -/
def bitWidth : ScalarType → Nat
  | bool => 8
  | i32 | u32 | f32 => 32
  | i64 | u64 | f64 => 64

def isFloat : ScalarType → Bool
  | f32 | f64 => true
  | _ => false

def isIntegral : ScalarType → Bool
  | i32 | i64 | u32 | u64 => true
  | _ => false

def isSigned : ScalarType → Bool
  | i32 | i64 => true
  | _ => false

/-- The integer type on which a compare-and-swap of an element of this type works. -/
def wordType : ScalarType → ScalarType
  | bool | i32 | u32 | f32 => i32
  | i64 | u64 | f64 => i64

theorem mem_all (t : ScalarType) : t ∈ all := by cases t <;> decide

end ScalarType

/-- A scalar value. `f32` and `f64` hold the bit pattern of the number. -/
inductive Value
  | bool (b : Bool)
  | i32 (v : Int32)
  | i64 (v : Int64)
  | u32 (v : UInt32)
  | u64 (v : UInt64)
  | f32 (bits : UInt32)
  | f64 (bits : UInt64)
deriving DecidableEq

namespace Value

def type : Value → ScalarType
  | bool _ => .bool
  | i32 _ => .i32
  | i64 _ => .i64
  | u32 _ => .u32
  | u64 _ => .u64
  | f32 _ => .f32
  | f64 _ => .f64

/-- The bits of a value, extended with zeros to a 64-bit word. -/
def toBits : Value → UInt64
  | bool b => if b then 1 else 0
  | i32 v => v.toUInt32.toUInt64
  | i64 v => v.toUInt64
  | u32 v => v.toUInt64
  | u64 v => v
  | f32 bits => bits.toUInt64
  | f64 bits => bits

/-- Reads the low bits of a word as a value of a type. A Boolean is true when its byte is not zero. -/
def ofBits (type : ScalarType) (bits : UInt64) : Value :=
  match type with
  | .bool => bool (bits &&& 0xff != 0)
  | .i32 => i32 bits.toUInt32.toInt32
  | .i64 => i64 bits.toInt64
  | .u32 => u32 bits.toUInt32
  | .u64 => u64 bits
  | .f32 => f32 bits.toUInt32
  | .f64 => f64 bits

def zero (type : ScalarType) : Value := ofBits type 0

/-- The value as a 64-bit integer; the largest `u64` values wrap around. -/
def toInt64? : Value → Option Int64
  | bool b => some (if b then 1 else 0)
  | i32 v => some v.toInt64
  | i64 v => some v
  | u32 v => some v.toUInt64.toInt64
  | u64 v => some v.toInt64
  | f32 _ | f64 _ => none

def toBool? : Value → Option Bool
  | bool b => some b
  | _ => none

@[simp] theorem type_ofBits (type : ScalarType) (bits : UInt64) : (ofBits type bits).type = type := by
  cases type <;> rfl

@[simp] theorem type_zero (type : ScalarType) : (zero type).type = type := type_ofBits type 0

/-- What is stored is what is loaded again. -/
@[simp] theorem ofBits_toBits (v : Value) : ofBits v.type v.toBits = v := by
  cases v with
  | bool b => cases b <;> rfl
  | i32 v | i64 v | u32 v | u64 v | f32 v | f64 v => simp [type, toBits, ofBits]

end Value
end SegKernel
