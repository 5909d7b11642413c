import SegKernel.Launch.Basic
import SegKernel.Lowering.Session

/-! Kernels that fill an array, one thread for each element. -/

namespace SegKernel.Lowering

/-- Emits a kernel with a thread for each of `n` elements; `element` makes the code for an element. -/
def fill (kernel : String) (n : Exp) (element : Exp → Fresh Stmt) : Lowering Unit := do
  let (launch, entry, param) ← Launch.forElements (← read).config.sizes kernel n
  addTuning param
  let body ← element launch.gtid
  emitKernel kernel launch.numGroups launch.groupSize (.block [entry, .when launch.active body])

/-- Sets all elements to a value. -/
def fillValue (view : View) (length value : Exp) : Lowering Unit :=
  fill "replicate" length fun i => pure (.write view i value)

def replicate (dest : Ident) (value : Operand) : Lowering Unit := do
  let dest ← globalArray dest "replicate" none
  fillValue dest.view dest.length value.toExp

/-- Sets element `i` to `start + i * step`, computed in 64 bits. -/
def iota (dest : Ident) (start step : Operand) : Lowering Unit := do
  let dest ← globalArray dest "iota" none
  fill "iota" dest.length fun i =>
    let value := start.toExp.toType .i64 + i * step.toExp.toType .i64
    pure (.write dest.view i (value.toType dest.view.type))

/-- Copies an array into another one of the same type and, as far as is known, the same length. -/
def copy (dest source : Ident) : Lowering Unit := do
  let target ← globalArray dest "copy" none
  let origin ← globalArray source "copy" none
  check (target.view.type == origin.view.type) (.copyTypes source origin.view.type dest target.view.type) none
  match target.length.int?, origin.length.int? with
  | some a, some b => check (a == b) (.copyLengths b a) none
  | _, _ => pure ()
  fill "copy" target.length fun i => do
    let v ← fresh "elem"
    return .block [.declare v origin.view.type false, .read v origin.view i, .write target.view i (.var v)]

end SegKernel.Lowering
