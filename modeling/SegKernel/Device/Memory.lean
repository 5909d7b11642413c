import SegKernel.Device.Fault
import SegKernel.Kernel.Basic
import SegKernel.Table

/-! Arrays of a device. An array holds the bits of its elements together with the type under which
    it was made; it can be read and written through any view of the same element width. -/

namespace SegKernel

structure Buffer where
  type : ScalarType
  bits : Array UInt64

namespace Buffer

def zeroed (type : ScalarType) (length : Nat) : Buffer := ⟨type, Array.replicate length 0⟩

def ofValues (type : ScalarType) (values : List Value) : Buffer := ⟨type, (values.map Value.toBits).toArray⟩

def values (b : Buffer) : List Value := b.bits.toList.map (Value.ofBits b.type)

/-- The position that an access through a view addresses. -/
def position (b : Buffer) (view : View) (index : Int64) : Except Fault Nat :=
  if b.type.bitWidth ≠ view.type.bitWidth then .error (.typeMismatch (.viewed view.array b.type view.type))
  else if 0 ≤ index.toInt ∧ index.toInt < b.bits.size then .ok index.toInt.toNat
  else .error (.outOfBounds view.array index b.bits.size)

def load (b : Buffer) (view : View) (index : Int64) : Except Fault Value :=
  (b.position view index).map fun i => Value.ofBits view.type (b.bits.getD i 0)

def put (b : Buffer) (i : Nat) (bits : UInt64) : Buffer := { b with bits := b.bits.setIfInBounds i bits }

end Buffer

abbrev Memory := Table Buffer

/-- The length of an array that code asks for; a negative one is an index out of the empty array. -/
def arrayLength (name : Ident) (length : Int64) : Except Fault Nat :=
  if length.toInt < 0 then .error (.outOfBounds name length 0) else .ok length.toInt.toNat

end SegKernel
