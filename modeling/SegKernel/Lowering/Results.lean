import SegKernel.Launch.Nest
import SegKernel.Lowering.Body

/-! Code that stores the results of a body in their destinations. -/

namespace SegKernel

/-- The results of an operation with the names that they are bound to. -/
abbrev BoundResults := List (PatElem × BodyResult)

namespace ArrayInfo

/-- The position of element `inner` of the part of an array at `indices`. -/
def partIndex (dest : ArrayInfo) (indices : List Exp) (inner : Exp) : Exp :=
  let row := Exp.flatten (dest.shape.take indices.length) (indices.take dest.shape.length)
  row * .product (dest.shape.drop indices.length) + inner

/-- The array has at least as many dimensions as there are indices for a result. -/
def checkRank (dest : ArrayInfo) (indices : List Exp) (madeBy : Level) (span : Option Span) : Lowering Unit :=
  Lowering.check (indices.length ≤ dest.shape.length)
    (.resultRank dest.view.array dest.shape.length madeBy) span

/-- Reads an element and writes it to another array. -/
def moveElement (source dest : ArrayInfo) (v : Ident) (i j : Exp) : Stmt :=
  .block [.declare v source.view.type false, .read v source.view i, .write dest.view j (.var v)]

end ArrayInfo

namespace BodyScope

/-- Stores a value, or each element of a small array, at the given indices of the destination. -/
def store (scope : BodyScope) (dest : ArrayInfo) (indices : List Exp) (value : Operand) : Lowering Stmt := do
  dest.checkRank indices .thread scope.span
  match scope.operandArray? value with
  | some source =>
    let j ← fresh "j"
    let v ← fresh "elem"
    return .loop j source.length (source.moveElement dest v (.var j) (dest.partIndex indices (.var j)))
  | none => return .write dest.view (dest.partIndex indices (.int 0)) value.toExp

/-! ### Results of threads -/

/-- Writes values to computed places, where these lie inside the extents. -/
def scatter (scope : BodyScope) (name : Ident) (dest : ArrayInfo) (extents : List Exp)
    (writes : List (List Operand × Operand)) : Lowering Stmt := do
  let code ← writes.mapM fun (indices, value) => do
    Lowering.check (indices.length == extents.length) (.scatterRank name indices.length extents.length) scope.span
    let indices := indices.map Operand.toExp
    return Stmt.when (indicesInBounds extents indices)
      (.write dest.view (.flatten extents indices) value.toExp)
  return .block code

/-- Writes the elements of a thread to their places in the concatenation of all, as far as the
    destination reaches. -/
def concatenate (scope : BodyScope) (flat : Ident) (dest : ArrayInfo) (split : Split) (perThread : Exp)
    (array : Ident) : Lowering Stmt := do
  let source ← scope.array array
  let j ← fresh "j"
  let v ← fresh "elem"
  let position := match split with
    | .contiguous => Exp.var flat * perThread + .var j
    | .strided stride => Exp.var flat + .var j * stride.toExp
  return .loop j perThread <|
    .when (position.lt dest.length) (source.moveElement dest v (.var j) position)

/-- Stores one result of a body that each thread runs for its own point. -/
def threadResult (scope : BodyScope) (space : IterationSpace) (name : Ident) (result : BodyResult) :
    Lowering Stmt := do
  let dest ← scope.array name
  match result with
  | .returns value => scope.store dest space.indexExps value
  | .write shape writes => do
    Lowering.markScatter
    scope.scatter name dest (shape.map Operand.toExp) writes
  | .concat split perThread array => scope.concatenate space.flat dest split perThread.toExp array
  | .tile .. => Lowering.limitation .tileByThreads scope.span

def threadResults (scope : BodyScope) (space : IterationSpace) (results : BoundResults) : Lowering Stmt := do
  return .block (← results.mapM fun (p, result) => scope.threadResult space p.name result)

/-! ### Results of groups -/

/-- Writes the tile of the group at `indices`, as far as it lies inside the extents of the destination. -/
def assembleTile (scope : BodyScope) (indices : List Exp) (dest : ArrayInfo) (tiles : List (Operand × Operand))
    (array : Ident) : Lowering Stmt := do
  Lowering.check (tiles.length == indices.length) (.tileRank tiles.length indices.length) scope.span
  let source ← scope.array array
  let ids ← freshFor "tile_i" tiles
  let flat ← fresh "tile_flat"
  let space : IterationSpace := ⟨flat, (ids.zip tiles).map fun (i, _, size) => (i, size)⟩
  let extents := tiles.map fun (extent, _) => extent.toExp
  let position := ((indices.zip tiles).zip space.indexExps).map fun ((g, _, size), i) => g * size.toExp + i
  let v ← fresh "elem"
  let nest ← scope.launch.coverSpace .virtualize space
  return nest.wrap <| .when (indicesInBounds extents position) <|
    source.moveElement dest v (.var flat) (.flatten extents position)

/-- Stores a value or an array that the group at `indices` has made. -/
def storeOfGroup (scope : BodyScope) (indices : List Exp) (dest : ArrayInfo) (value : Operand) : Lowering Stmt := do
  match (scope.operandArray? value).filter (·.view.space == .shared) with
  | some source =>
    dest.checkRank indices .group scope.span
    let (i, nest) ← scope.launch.coverNumbers source.length
    let v ← fresh "elem"
    return nest.wrap (source.moveElement dest v i (dest.partIndex indices i))
  | none => return .when (scope.launch.ltid.equals (.int 0)) (← scope.store dest indices value)

/-- Stores one result of a body that the group at `indices` runs together. -/
def groupResult (scope : BodyScope) (indices : List Exp) (name : Ident) (result : BodyResult) :
    Lowering Stmt := do
  let dest ← scope.array name
  match result with
  | .returns value => scope.storeOfGroup indices dest value
  | .tile tiles array => scope.assembleTile indices dest tiles array
  | .write .. => Lowering.limitation .writeByGroups scope.span
  | .concat .. => Lowering.limitation .concatByGroups scope.span

def groupResults (scope : BodyScope) (indices : List Exp) (results : BoundResults) : Lowering Stmt := do
  return .block (← results.mapM fun (p, result) => scope.groupResult indices p.name result)

end BodyScope
end SegKernel
