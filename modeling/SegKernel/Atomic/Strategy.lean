import SegKernel.Atomic.Table
import SegKernel.Seg.Basic

/-! How an operator can be applied to a shared location while other threads do the same. -/

namespace SegKernel

/-- How one component is updated on its own. -/
inductive ComponentUpdate
  | native (op : AtomicOp)
  /-- Compares and swaps until no other thread has come between. -/
  | swap (op : BinaryOp)
deriving DecidableEq

inductive AtomicUpdate
  /-- One update for each component. -/
  | components (updates : List ComponentUpdate)
  /-- Compares and swaps with the whole operator. -/
  | swap
  /-- Takes a lock. -/
  | locked
deriving DecidableEq

def AtomicUpdate.needsLocks (u : AtomicUpdate) : Bool := u == locked

namespace Lambda

/-- The operator of a component whose result is a binary operator on exactly its two parameters. -/
def component? (result : Exp) (x y : Param) : Option (BinaryOp × ScalarType) :=
  match result with
  | .binary op a b => if a = .var x.name ∧ b = .var y.name then some (op, x.type) else none
  | _ => none

/-- The operators of all components, if each result is a binary operator on the two parameters of its
    component. -/
def components? (l : Lambda) : Option (List (BinaryOp × ScalarType)) :=
  if l.isWellFormed then (l.results.zip (l.left.zip l.right)).mapM fun (result, x, y) => component? result x y
  else none

/-- Compare-and-swap of the whole operator where it has one component of 32 bits, else a lock. -/
def wholeUpdate (l : Lambda) : AtomicUpdate :=
  match l.resultTypes with
  | [type] => if type.bitWidth = 32 ∧ l.isWellFormed then .swap else .locked
  | _ => .locked

/-- The cheapest update that the hardware allows. -/
def atomicUpdate (table : AtomicsTable) (l : Lambda) : AtomicUpdate :=
  match l.components? with
  | some components =>
    if components.all (·.2.bitWidth == 32) then
      .components (components.map fun (op, type) =>
        match table.native op type with
        | some native => .native native
        | none => .swap op)
    else l.wholeUpdate
  | none => l.wholeUpdate

end Lambda
end SegKernel
