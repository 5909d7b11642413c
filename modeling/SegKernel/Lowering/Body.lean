import SegKernel.Launch.Basic
import SegKernel.Lowering.Session

/-! Code of body statements. -/

namespace SegKernel

/-- What the body of an operation sees: the launch, and the arrays that its kernel declares, the latest
    first. -/
structure BodyScope where
  launch : Launch
  arrays : List (Ident × ArrayInfo) := []
  span : Option Span := none

namespace BodyScope

/-- The scope of the body of a nested operation. -/
def nested (scope : BodyScope) (span : Option Span) : BodyScope := { scope with span := span <|> scope.span }

def addArrays (scope : BodyScope) (arrays : List (Ident × ArrayInfo)) : BodyScope :=
  { scope with arrays := arrays.reverse ++ scope.arrays }

/-- An array that the kernel declares. -/
def kernelArray? (scope : BodyScope) (name : Ident) : Option ArrayInfo :=
  (scope.arrays.find? (·.1 == name)).map (·.2)

/-- The array for which an operand stands, if the kernel declares it. -/
def operandArray? (scope : BodyScope) : Operand → Option ArrayInfo
  | .var name => scope.kernelArray? name
  | .const _ => none

/-- An array of the kernel, or else a global one. -/
def array? (scope : BodyScope) (name : Ident) : Lowering (Option ArrayInfo) :=
  match scope.kernelArray? name with
  | some a => pure (some a)
  | none => Lowering.globalArray? name

def array (scope : BodyScope) (name : Ident) : Lowering ArrayInfo := do
  Lowering.require (← scope.array? name) (.unknownArray name "kernel body") scope.span

end BodyScope

/-- Whether all indices lie between zero and their extents. -/
def indicesInBounds (shape indices : List Exp) : Exp :=
  .all ((shape.zip indices).map fun (d, i) => ((Exp.int 0).le i).both (i.lt d))

namespace BodyStm

/-- The code that reads an element of an array. -/
def readCode (scope : BodyScope) (name : Ident) (type : ScalarType) (array : Ident) (index : List Exp) :
    Lowering Stmt := do
  let a ← scope.array array
  Lowering.check (a.shape.length == index.length) (.indexRank array a.shape.length index.length) scope.span
  Lowering.check (a.view.type == type) (.indexType array a.view.type type) scope.span
  let readElement := Stmt.read name a.view (.flatten a.shape index)
  let guarded := if (← read).config.checkIndices then .when (indicesInBounds a.shape index) readElement
    else readElement
  return .block [.declare name type false, guarded]

/-- The code that makes an array of given elements, and the array. -/
def arrayCode (name : Ident) (type : ScalarType) (elems : List Operand) : Stmt × ArrayInfo :=
  let view : View := ⟨name, type, .thread, false⟩
  let length := Exp.int (Int64.ofNat elems.length)
  let writes := elems.mapIdx fun i e => Stmt.write view (.int (Int64.ofNat i)) e.toExp
  (.block (.declareArray name type length .thread :: writes), ⟨view, [length]⟩)

/-- How the code of a nested operation is made; it may declare arrays. -/
abbrev NestedCode := BodyScope → List PatElem → SegOp → Lowering (Stmt × BodyScope)

/-- The code of a statement, and the scope of the statements after it. -/
def code (nestedCode : NestedCode) (scope : BodyScope) : BodyStm → Lowering (Stmt × BodyScope)
  | compute name type value => return (.declareInit name type value, scope)
  | index name type array is => return (← readCode scope name type array is, scope)
  | arrayLit name type elems =>
    let (stmt, info) := arrayCode name type elems
    return (stmt, scope.addArrays [(name, info)])
  | nested pattern op => nestedCode scope pattern op

/-- The code of statements one after another. -/
def codeAll (nestedCode : NestedCode) (scope : BodyScope) : List BodyStm → Lowering (List Stmt × BodyScope)
  | [] => return ([], scope)
  | stm :: stms => do
    let (first, scope) ← stm.code nestedCode scope
    let (rest, scope) ← codeAll nestedCode scope stms
    return (first :: rest, scope)

/-- A single thread cannot run an operation inside its body. -/
def noNested : NestedCode := fun _ _ op => Lowering.defect (.nestedInThread op.kind.name) op.span

/-- The code of a body that each thread runs on its own. -/
def threadBody (scope : BodyScope) (stms : List BodyStm) : Lowering (Stmt × BodyScope) := do
  let (code, scope) ← codeAll noNested scope stms
  return (.block code, scope)

end BodyStm
end SegKernel
