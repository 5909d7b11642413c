import SegKernel.Lowering.Buckets
import SegKernel.Lowering.Fill
import SegKernel.Lowering.Map

/-! Histograms over a whole launch. The destinations are first filled with their initial contents, by
    kernels of their own; then all threads update the buckets at the same time. -/

namespace SegKernel.Lowering

/-- Makes an array of locks for the histograms that need them: as many as the largest of them has
    buckets, up to a limit. -/
def globalLocks (hs : List (Histogram × AtomicUpdate)) : Lowering (Option Locking) := do
  match (hs.filter (·.2.needsLocks)).map fun (h, _) => Exp.product h.shapeExps with
  | [] => return none
  | size :: sizes =>
    let numLocks := (sizes.foldl Exp.maximum size).minimum (.int (← read).config.maxLocks)
    let locks ← allocate "hist_locks" .i32 numLocks
    return some ⟨locks, numLocks⟩

/-- Fills a destination with its initial contents, unless it has them already. -/
def seedGlobal (p : PatElem) (initial : Ident) (span : Option Span) : Lowering View := do
  if p.name ≠ initial then copy p.name initial
  return (← globalArray p.name "seghist" span).view

/-- Fills the destinations of all histograms, and gives their views for each histogram. -/
def seedGlobals (span : Option Span) : List Histogram → List PatElem → Lowering (List (List View))
  | [], _ => return []
  | h :: hs, pattern => do
    h.checkDests span
    inRange h.lambda.arity pattern.length
    let views ← ((pattern.take h.lambda.arity).zip h.dests).mapM fun (p, initial) => seedGlobal p initial span
    return views :: (← seedGlobals span hs (pattern.drop h.lambda.arity))

/-- The bin or a value that a point contributes. -/
def histogramValue (span : Option Span) (result : BodyResult) : Lowering Exp := do
  return (← result.plain .histogramValue span).toExp

/-- The kernel that updates the buckets, once the destinations are filled. -/
def updateByThreads (pattern : List PatElem) (op : SegOp) (hs : List Histogram) (locking : Option Locking)
    (updates : List AtomicUpdate) (dests : List (List View)) : Lowering Unit := do
  let (launch, entry) ← Launch.start op.grid.groupCount op.grid.groupWidth
  let nest ← launch.coverByThreads op.grid.coverage op.space
  let (body, scope) ← BodyStm.threadBody { launch, span := op.span } op.stms
  let contributions ← Histogram.updateCode locking op.space op.span (histogramValue op.span)
    ((hs.zip updates).zip dests) (op.results.take hs.length)
    ((op.results.drop hs.length).take (Histogram.components hs))
  let mapped ← scope.threadResults op.space (← Histogram.mappedResults hs pattern op.results)
  emitKernel "seghist" op.grid.groupCount op.grid.groupWidth
    (.block [entry, nest.wrap (.block (body :: contributions ++ [mapped]))])

def histogramByThreads (pattern : List PatElem) (op : SegOp) (hs : List Histogram) : Lowering Unit := do
  Histogram.checkCounts hs op pattern
  inRange hs.length op.results.length
  let _ ← (op.results.take hs.length).mapM (histogramValue op.span)
  inRange (hs.length + Histogram.components hs) op.results.length
  let _ ← ((op.results.drop hs.length).take (Histogram.components hs)).mapM (histogramValue op.span)
  let table := (← read).config.atomics
  let updates := hs.map fun h => h.lambda.atomicUpdate table
  let locking ← globalLocks (hs.zip updates)
  let dests ← seedGlobals op.span hs pattern
  match locking with
  | some locking => fillValue locking.locks locking.numLocks (.i32 Locking.unlocked)
  | none => pure ()
  updateByThreads pattern op hs locking updates dests

end SegKernel.Lowering
