import SegKernel.Config
import SegKernel.Kernel.Fresh
import SegKernel.Seg.Basic

/-! What the code of a kernel knows about its launch: the variables that hold the place of a thread,
    the sizes of the launch, and what was computed in advance for the operations inside. -/

namespace SegKernel

structure Launch where
  globalId : Ident
  localId : Ident
  groupId : Ident
  waveWidth : Ident
  numGroups : Exp
  groupSize : Exp
  numThreads : Exp
  /-- Whether a thread has any work. -/
  active : Exp := .bool true
  /-- The indices of the point that a thread has in a space of a shape. -/
  pointIds : List (List Operand × List Exp) := []
  /-- How many group-sized chunks a space of a shape has. -/
  chunkCounts : List (List Operand × Exp) := []

namespace Launch

def gtid (l : Launch) : Exp := .var l.globalId
def ltid (l : Launch) : Exp := .var l.localId
def gid (l : Launch) : Exp := .var l.groupId

/-- How many threads run in lockstep; zero if the device promises nothing. -/
def wave (l : Launch) : Exp := .var l.waveWidth

/-- The global index of the first thread of the group. -/
def groupBase (l : Launch) : Exp := l.gtid - l.ltid

def pointIds? (l : Launch) (shape : List Operand) : Option (List Exp) :=
  (l.pointIds.find? (·.1 == shape)).map (·.2)

def chunkCount? (l : Launch) (shape : List Operand) : Option Exp :=
  (l.chunkCounts.find? (·.1 == shape)).map (·.2)

/-- Declares a variable and asks the device for its value. -/
def ask (which : Query) (name : Ident) : Stmt := .seq [.declare name .i64 false, .query which name]

/-- A launch of `numGroups` groups of `groupSize` threads, and the code with which a body starts. -/
def start (numGroups groupSize : Exp) : Fresh (Launch × Stmt) := do
  let globalId ← fresh "global_tid"
  let localId ← fresh "local_tid"
  let groupId ← fresh "group_id"
  let waveWidth ← fresh "wave_size"
  let entry := Stmt.comment "kernel constants" <| .block [
    ask .globalId globalId, ask .localId localId, ask .groupId groupId, ask .lockstepWidth waveWidth]
  return ({ globalId, localId, groupId, waveWidth, numGroups, groupSize, numThreads := numGroups * groupSize },
    entry)

/-- The parameter that tunes the group size of a fill kernel. -/
def sizeParam (kernel : String) : Ident := "builtin#" ++ kernel ++ ".group_size"

/-- A launch of at least `n` threads, of which the first `n` have work. The group size is a tuning
    parameter. -/
def forElements (sizes : SizeClasses) (kernel : String) (n : Exp) : Fresh (Launch × Stmt × TuningParam) := do
  let param : TuningParam := ⟨sizeParam kernel, sizes.sizeOf (sizeParam kernel)⟩
  let groupSize := Exp.var param.name
  let (launch, entry) ← start (n.divUp groupSize) groupSize
  return ({ launch with active := launch.gtid.lt n }, entry, param)

end Launch

/-! ### Indices of a flat index -/

/-- The indices after the first one. -/
def Stmt.innerIndices (flat : Exp) : List (Ident × Exp) → List Stmt
  | [] => []
  | (name, extent) :: dims =>
    .declareInit name .i64 (flat / .product (dims.map (·.2)) % extent) :: innerIndices flat dims

/-- Declares the indices of the point at a row-major position. The first index is not reduced, so a
    position past the end gives a first index past its extent. -/
def Stmt.unflatten (dims : List (Ident × Exp)) (flat : Exp) : Stmt :=
  match dims with
  | [] => skip
  | (name, _) :: dims =>
    block (declareInit name .i64 (flat / .product (dims.map (·.2))) :: innerIndices flat dims)

/-- The indices of a space with their extents. -/
def IterationSpace.extents (s : IterationSpace) : List (Ident × Exp) := s.dims.map fun (i, d) => (i, d.toExp)

/-! ### Computing in advance -/

namespace Launch

/-- Computes for one statement of a group's body what its space needs, if its shape is known on the
    host and was not met before. Collects what is found in the launch, and the code. -/
def precomputeStep (env : HostEnv) (found : Launch × List Stmt) (stm : BodyStm) : Fresh (Launch × List Stmt) := do
  let (launch, code) := found
  match stm with
  | .nested _ op =>
    let shape := op.space.shape
    let extents := shape.map Operand.toExp
    if !shape.all env.isInvariant then return found
    else if op.grid.coverage = .virtualize then
      if (launch.chunkCount? shape).isSome then return found
      let count ← fresh "chunk_iters"
      return ({ launch with chunkCounts := (shape, .var count) :: launch.chunkCounts },
        code ++ [.declareInit count .i64 ((Exp.product extents).divUp launch.groupSize)])
    else
      if (launch.pointIds? shape).isSome then return found
      let ids ← freshFor "ltid_pre" shape
      return ({ launch with pointIds := (shape, ids.map .var) :: launch.pointIds },
        code ++ [.unflatten (ids.zip extents) launch.ltid])
  | _ => return found

/-- The launch with what can be computed once for all nested operations of `stms`, and the code that
    computes it. -/
def precompute (env : HostEnv) (launch : Launch) (stms : List BodyStm) : Fresh (Launch × Stmt) := do
  let (launch, code) ← stms.foldlM (precomputeStep env) ({ launch with pointIds := [], chunkCounts := [] }, [])
  return (launch, if code.isEmpty then .skip else .comment "precomputed nested ids" (.block code))

end Launch
end SegKernel
