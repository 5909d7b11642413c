import SegKernel.Launch.Nest

/-! Where the elements of a collective operation lie, and the two elementary steps on them: combining
    two elements, and copying one. -/

namespace SegKernel

inductive Layout
  /-- Scalars in shared memory, element `e` at `base + e`. -/
  | shared (base : Exp)
  /-- Rows of `lanes` values in global memory. Element `e` of a group is the row of the thread that has
      number `e` in the group. Rows are grouped in regions of `regionLength` values. -/
  | rows (lanes regionLength : Exp)

/-- An element in a region. -/
structure Cell where
  region : Int64 := 0
  element : Exp

namespace Layout

def isRows : Layout → Bool
  | shared _ => false
  | rows .. => true

/-- The memory in which the elements lie. -/
def fence : Layout → Fence
  | shared _ => .shared
  | rows .. => .global

/-- The position of a lane of an element. Shared memory has one region and one lane. -/
def address (layout : Layout) (l : Launch) (cell : Cell) (lane : Exp) : Exp :=
  match layout with
  | shared base => base + cell.element
  | rows lanes regionLength => .int cell.region * regionLength + (l.groupBase + cell.element) * lanes + lane

/-- Code for each lane of an element, which is a loop for rows. -/
def eachLane (layout : Layout) (body : Exp → Fresh Stmt) : Fresh Stmt :=
  match layout with
  | shared _ => body (.int 0)
  | rows lanes _ => do
    let j ← fresh "lane"
    return .loop j lanes (← body (.var j))

end Layout

/-- The view of an array that must not be cached, if `volatile`. -/
def View.withVolatile (v : View) (volatile : Bool) : View := { v with volatile := volatile || v.volatile }

def View.uncached (v : View) : View := v.withVolatile true

/-- Declares a variable and reads an element into it. -/
def View.load (v : View) (dest : Ident) (type : ScalarType) (index : Exp) : List Stmt :=
  [.declare dest type false, .read dest v index]

/-- An operator and the arrays, one for each component, that hold the elements which the threads of a
    group combine. -/
structure Collective where
  launch : Launch
  lambda : Lambda
  views : List View
  layout : Layout

namespace Collective

def address (c : Collective) (cell : Cell) (lane : Exp) : Exp := c.layout.address c.launch cell lane

/-- Reads both operands of one component, and gives their variables. -/
def loadOperands (c : Collective) (volatile : Bool) (left right : Cell) (lane : Exp) (view : View) (param : Param) :
    Fresh (Exp × Exp × List Stmt) := do
  let view := view.withVolatile volatile
  let x ← fresh "x"
  let y ← fresh "y"
  return (.var x, .var y,
    view.load x param.type (c.address left lane) ++ view.load y param.type (c.address right lane))

/-- Stores one lane of the combination of the elements at `left` and `right` at `dest`, or of the right
    one where `keepRight` holds. -/
def combineLane (c : Collective) (dest left right : Cell) (keepRight : Option Exp) (volatile : Bool) (lane : Exp) :
    Fresh Stmt := do
  let loads ← (c.views.zip c.lambda.left).mapM fun (view, param) =>
    c.loadOperands volatile left right lane view param
  let ys := loads.map (·.2.1)
  let results := c.lambda.apply (loads.map (·.1)) ys
  let stores := ((c.views.zip results).zip ys).map fun ((view, result), y) =>
    Stmt.write (view.withVolatile volatile) (c.address dest lane) <|
      match keepRight with
      | some keep => .choose keep y result
      | none => result
  return .block (loads.flatMap (·.2.2) ++ stores)

/-- Stores the combination of the elements at `left` and `right` at `dest`, or the right one where
    `keepRight` holds. -/
def combine (c : Collective) (dest left right : Cell) (keepRight : Option Exp) (volatile : Bool) : Fresh Stmt :=
  c.layout.eachLane (c.combineLane dest left right keepRight volatile)

/-- Copies one lane of an element. -/
def copyLane (c : Collective) (dest source : Cell) (lane : Exp) : Fresh Stmt := do
  let code ← (c.views.zip c.lambda.left).mapM fun (view, param) => do
    let view := view.withVolatile c.layout.isRows
    let v ← fresh "v"
    return view.load v param.type (c.address source lane) ++ [.write view (c.address dest lane) (.var v)]
  return .block code.flatten

/-- Copies an element. -/
def copy (c : Collective) (dest source : Cell) : Fresh Stmt := c.layout.eachLane (c.copyLane dest source)

end Collective
end SegKernel
