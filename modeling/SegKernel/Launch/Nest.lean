import SegKernel.Launch.Basic

/-! Loops and guards with which a limited number of threads or groups covers any amount of work. -/

namespace SegKernel

/-- Code around a body: first a setup, then, perhaps in a counted loop, code before the body, the body
    under a guard, and code after it. -/
structure Nest where
  setup : List Stmt := []
  counted : Option (Ident × Exp) := none
  before : List Stmt := []
  guard : Exp := .bool true
  after : List Stmt := []

namespace Nest

def inner (n : Nest) (body : Stmt) : List Stmt := n.before ++ [.when n.guard body] ++ n.after

/-- Puts the nest around a body. -/
def wrap (n : Nest) (body : Stmt) : Stmt :=
  match n.counted with
  | some (iter, bound) => .block (n.setup ++ [.loop iter bound (.block (n.inner body))])
  | none => .block (n.setup ++ n.inner body)

end Nest

namespace Launch

/-- Runs a body once for each logical group below `required`, and gives the expression of the logical
    group. With virtualization a group visits every `numGroups`-th logical group; a barrier ends each
    visit, so that the next one does not disturb threads that are still in it. -/
def coverGroups (l : Launch) (coverage : Coverage) (required : Exp) : Fresh (Exp × Nest) := do
  match coverage with
  | .direct => return (l.gid, {})
  | .virtualize | .full =>
    let physical ← fresh "phys_group_id"
    let iterations ← fresh "iterations"
    let i ← fresh "i"
    let logical ← fresh "virt_group_id"
    return (.var logical, {
      setup := [ask .groupId physical,
        .declareInit iterations .i64 ((required - .var physical).divUp l.numGroups)]
      counted := some (i, .var iterations)
      before := [.declareInit logical .i64 (.var physical + .var i * l.numGroups)]
      after := [.barrier .global] })

/-- Gives the numbers below `n` to the threads of a group. There is no loop if they are as many as the
    threads. -/
def coverNumbers (l : Launch) (n : Exp) : Fresh (Exp × Nest) := do
  if n = l.groupSize then return (l.ltid, {})
  else
    let chunks ← fresh "num_chunks"
    let chunk ← fresh "chunk_i"
    let i ← fresh "i"
    return (.var i, {
      setup := [.declareInit chunks .i64 (n.divUp l.groupSize)]
      counted := some (chunk, .var chunks)
      before := [.declareInit i .i64 (.var chunk * l.groupSize + l.ltid)]
      guard := (Exp.var i).lt n })

/-- Visits the group-sized chunks of the numbers below `w`, all threads together, and gives the start
    and the size of the chunk. -/
def coverChunks (l : Launch) (w : Exp) : Fresh (Exp × Exp × Nest) := do
  let chunks ← fresh "num_chunks"
  let chunk ← fresh "chunk_i"
  let start ← fresh "chunk_start"
  let size ← fresh "chunk_size"
  return (.var start, .var size, {
    setup := [.declareInit chunks .i64 (w.divUp l.groupSize)]
    counted := some (chunk, .var chunks)
    before := [
      .declareInit start .i64 (.var chunk * l.groupSize),
      .declareInit size .i64 (w.minimum (.var start + l.groupSize) - .var start)] })

end Launch

/-- Whether all indices of a point are below their extents. -/
def IterationSpace.isInside (s : IterationSpace) : Exp := .all (s.extents.map fun (i, d) => (Exp.var i).lt d)

namespace Launch

/-- Gives the points of a space to the threads of a group, and declares the flat index and the indices.
    A space of as many points as threads needs neither loop nor guard. -/
def coverSpace (l : Launch) (coverage : Coverage) (s : IterationSpace) : Fresh Nest := do
  let declareFlat (flat : Exp) : Stmt := .declareInit s.flat .i64 flat
  match if s.size = l.groupSize then .full else coverage with
  | .virtualize =>
    let chunk ← fresh "chunk_i"
    let i ← fresh "i"
    let (setup, count) ← match l.chunkCount? s.shape with
      | some count => pure ([], count)
      | none => do
        let count ← fresh "chunk_iters"
        pure ([Stmt.declareInit count .i64 (s.size.divUp l.groupSize)], Exp.var count)
    return {
      setup
      counted := some (chunk, count)
      before := [.declareInit i .i64 (.var chunk * l.groupSize + l.ltid), declareFlat (.var i),
        .unflatten s.extents (.var i)]
      guard := s.isInside }
  | .full => return { before := [declareFlat l.ltid, .unflatten s.extents l.ltid] }
  | .direct =>
    let declareIds := match l.pointIds? s.shape with
      | some ids => Stmt.block ((s.indices.zip ids).map fun (i, id) => .declareInit i .i64 id)
      | none => .unflatten s.extents l.ltid
    return { before := [declareFlat l.ltid, declareIds], guard := s.isInside }

/-- Gives each visit of a nest the point at a flat index, under the guard that there is one. -/
def atPoint (nest : Nest) (coverage : Coverage) (s : IterationSpace) (flat : Exp) : Nest where
  setup := nest.setup
  counted := nest.counted
  before := nest.before ++ [.declareInit s.flat .i64 flat, .unflatten s.extents (.var s.flat)]
  guard := if coverage = .full then .bool true else (Exp.var s.flat).lt s.size
  after := nest.after

/-- Gives the points of a space to the threads of the whole launch. -/
def coverByThreads (l : Launch) (coverage : Coverage) (s : IterationSpace) : Fresh Nest := do
  let (group, nest) ← l.coverGroups coverage (s.size.divUp l.groupSize)
  return atPoint nest coverage s (group * l.groupSize + l.ltid)

/-- Gives the points of a space to the groups of the launch. -/
def coverByGroups (l : Launch) (coverage : Coverage) (s : IterationSpace) : Fresh Nest := do
  let (group, nest) ← l.coverGroups coverage s.size
  return atPoint nest coverage s group

end Launch
end SegKernel
