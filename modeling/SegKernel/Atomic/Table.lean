import SegKernel.Scalar.Operator
import SegKernel.Kernel.Basic

/-! The atomic operations that devices have in hardware. -/

namespace SegKernel

/-- The interface through which a device is programmed. -/
inductive AtomicsTable
  | cuda
  | opencl
deriving DecidableEq

namespace AtomicsTable

def name : AtomicsTable → String
  | cuda => "cuda"
  | opencl => "opencl"

def ofName? (s : String) : Option AtomicsTable := [cuda, opencl].find? (·.name == s)

/-- Whether the hardware adds to an element of a type. -/
def adds : AtomicsTable → ScalarType → Bool
  | _, .i32 | _, .u32 | cuda, .f32 => true
  | _, _ => false

/-- The hardware operation that does what an operator does on elements of a type. -/
def native (table : AtomicsTable) (op : BinaryOp) (type : ScalarType) : Option AtomicOp :=
  let onWords (a : AtomicOp) : Option AtomicOp := if type = .i32 ∨ type = .u32 then some a else none
  match op with
  | .add => if table.adds type then some .add else none
  | .min => onWords .min
  | .max => onWords .max
  | .and => onWords .and
  | .or => onWords .or
  | .xor => onWords .xor
  | _ => none

end AtomicsTable
end SegKernel
