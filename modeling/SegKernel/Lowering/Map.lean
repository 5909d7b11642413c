import SegKernel.Lowering.Nested

/-! Maps over a whole launch: each point of the space is one thread's, or one group's. -/

namespace SegKernel

namespace Grid

def groupCount (g : Grid) : Exp := g.numGroups.toExp
def groupWidth (g : Grid) : Exp := g.groupSize.toExp

end Grid

namespace Lowering

/-- A map whose points are run by threads. -/
def mapByThreads (pattern : List PatElem) (op : SegOp) : Lowering Unit := do
  let (launch, entry) ← Launch.start op.grid.groupCount op.grid.groupWidth
  let nest ← launch.coverByThreads op.grid.coverage op.space
  let (body, scope) ← BodyStm.threadBody { launch, span := op.span } op.stms
  let results ← scope.threadResults op.space (pattern.zip op.results)
  emitKernel "segmap" op.grid.groupCount op.grid.groupWidth (.block [entry, nest.wrap (.block [body, results])])

/-- A map whose points are run by groups. -/
def mapByGroups (pattern : List PatElem) (op : SegOp) : Lowering Unit := do
  let (launch, entry) ← Launch.start op.grid.groupCount op.grid.groupWidth
  let (launch, precomputed) ← Launch.precompute (← read).env launch op.stms
  let nest ← launch.coverByGroups op.grid.coverage op.space
  let (body, scope) ← BodyStm.groupBody { launch, span := op.span } op.stms
  let results ← scope.groupResults op.space.indexExps (pattern.zip op.results)
  emitKernel "segmap_intragroup" op.grid.groupCount op.grid.groupWidth
    (.block [entry, precomputed, nest.wrap (.block [body, results])])

end Lowering
end SegKernel
