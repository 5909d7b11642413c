import SegKernel.Atomic.Strategy
import SegKernel.Kernel.Fresh
import SegKernel.Lowering.Error

/-! The code of concurrent updates: hardware operations, compare-and-swap loops, and critical sections
    under a lock. -/

namespace SegKernel

/-- An array of locks that guards buckets; buckets share the locks. -/
structure Locking where
  locks : View
  numLocks : Exp

namespace Locking

/-- The value of a lock that nobody holds. -/
def unlocked : Int32 := 0

/-- The value of a lock that a thread holds. -/
def held : Int32 := 1

/-- The lock of a bucket. -/
def slot (l : Locking) (bucket : Exp) : Exp := bucket % l.numLocks

end Locking

def Space.fence : Space → Fence
  | shared => .shared
  | global | thread => .global

namespace ScalarType

/-- The value whose bits are a word. -/
def fromWord (type : ScalarType) (word : Exp) : Exp :=
  if type = type.wordType then word else .bitcast type word

/-- The word of the bits of a value. -/
def toWord (type : ScalarType) (value : Exp) : Exp :=
  if type = type.wordType then value else .bitcast type.wordType value

end ScalarType

/-- Stores `candidate`, which is computed from the word in `assumed`, and tries again until no other
    thread has changed the element meanwhile. Words are compared, not values, so the loop also ends
    where a value differs from itself. -/
def swapLoop (dest : View) (index : Exp) (assumed : Ident) (candidate : Exp) : Fresh Stmt := do
  let word := dest.type.wordType
  let old ← fresh "old"
  let oldBits ← fresh "old_bits"
  let runLoop ← fresh "run_loop"
  return .block [
    .declare old dest.type false,
    .read old { dest with volatile := true } index,
    .declareInit oldBits word (dest.type.toWord (.var old)),
    .declare assumed word false,
    .declareInit runLoop .bool (.bool true),
    .repeatWhile (.var runLoop) <| .block [
      .set assumed (.var oldBits),
      .compareSwap oldBits { dest with type := word } index (.var assumed) (dest.type.toWord candidate),
      .when ((Exp.var oldBits).equals (.var assumed)) (.set runLoop (.bool false))]]

/-- Reads all components, applies the operator and writes them back while the bucket's lock is held. -/
def lockedUpdate (locking : Locking) (lambda : Lambda) (dests : List View) (index : Exp) (values : List Exp) :
    Fresh Stmt := do
  let space := locking.locks.space
  let slot := locking.slot index
  let continues ← fresh "continue"
  let old ← fresh "old"
  let released ← fresh "released"
  let locks : View := { locking.locks with volatile := true }
  let dests := dests.map fun d => { d with volatile := true }
  let accs ← freshFor "acc" (dests.zip lambda.left)
  let bind := ((dests.zip lambda.left).zip accs).flatMap fun ((dest, param), acc) =>
    [Stmt.declare acc param.type false, .read acc dest index]
  let update := (dests.zip (lambda.apply (accs.map .var) values)).map fun (dest, result) =>
    Stmt.write dest index result
  let critical := Stmt.block [
    .comment "bind lhs" (.block bind),
    .comment "update result" (.block update),
    .memFence (dests.head?.elim space View.space).fence,
    .declare released .i32 false,
    .compareSwap released locks slot (.i32 Locking.held) (.i32 Locking.unlocked),
    .set continues (.bool false)]
  return .block [
    .declareInit continues .bool (.bool true),
    .declare old .i32 false,
    .repeatWhile (.var continues) <| .block [
      .compareSwap old locks slot (.i32 Locking.unlocked) (.i32 Locking.held),
      .when ((Exp.var old).equals (.i32 Locking.unlocked)) critical,
      .memFence space.fence]]

/-- Updates one component on its own. -/
def ComponentUpdate.code (dest : View) (index value : Exp) : ComponentUpdate → Fresh Stmt
  | native op => do
    let old ← fresh "old"
    return .block [.declare old dest.type false, .update op old dest index value]
  | swap op => do
    let assumed ← fresh "assumed"
    swapLoop dest index assumed (.apply op (dest.type.fromWord (.var assumed)) value)

namespace AtomicUpdate

/-- The code of an update of as many destinations as the operator has components. -/
def body (update : AtomicUpdate) (lambda : Lambda) (locking : Option Locking) (dests : List View) (index : Exp)
    (values : List Exp) : ExceptT LowerError Fresh Stmt :=
  match update with
  | components updates => do
    let code ← ((updates.zip dests).zip values).mapM fun ((u, dest), value) => u.code dest index value
    return .block code
  | swap => do
    let assumed ← fresh "assumed"
    match dests, lambda.results with
    | [dest], [result] =>
      let σ := lambda.substitution [dest.type.fromWord (.var assumed)] values
      swapLoop dest index assumed (result.substitute σ)
    | _, _ => throw (.defect .updateSwap lambda.span)
  | locked =>
    match locking with
    | some locking => lockedUpdate locking lambda dests index values
    | none => throw (.defect .updateLocks lambda.span)

/-- Takes `values` into the elements at `index` of `dests`. -/
def code (update : AtomicUpdate) (lambda : Lambda) (locking : Option Locking) (dests : List View) (index : Exp)
    (values : List Exp) : ExceptT LowerError Fresh Stmt := do
  if dests.length ≠ lambda.arity ∨ values.length ≠ lambda.arity then
    throw (.defect (.updateArity lambda.arity dests.length) lambda.span)
  else
    return .comment "atomic update" (← update.body lambda locking dests index values)

end AtomicUpdate
end SegKernel
