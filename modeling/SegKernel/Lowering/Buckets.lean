import SegKernel.Atomic.Update
import SegKernel.Lowering.Body

/-! The update of buckets, which histograms have in common, whether threads or groups make them. The
    results of such a body are first the bins, one for each histogram, then the values of all
    components, then mapped results. -/

namespace SegKernel

/-- The operand of a result that is a plain value. -/
def BodyResult.plain (result : BodyResult) (cause : Defect) (span : Option Span) : Lowering Operand :=
  match result with
  | .returns value => pure value
  | _ => Lowering.defect cause span

namespace Histogram

def shapeExps (h : Histogram) : List Exp := h.destShape.map Operand.toExp

/-- The number of components of all histograms. -/
def components (hs : List Histogram) : Nat := hs.foldl (fun n h => n + h.lambda.arity) 0

/-- The mapped results with their destinations. -/
def mappedResults (hs : List Histogram) (pattern : List PatElem) (results : List BodyResult) :
    Lowering (List (PatElem × BodyResult)) := do
  Lowering.inRange (components hs) pattern.length
  Lowering.inRange (hs.length + components hs) results.length
  return (pattern.drop (components hs)).zip (results.drop (hs.length + components hs))

/-- There are results for all bins and components, and a destination for each result that is no bin. -/
def checkCounts (hs : List Histogram) (op : SegOp) (pattern : List PatElem) : Lowering Unit :=
  Lowering.check
    (hs.length + components hs ≤ op.results.length ∧ pattern.length + hs.length = op.results.length)
    (.histogramCounts op.results.length pattern.length hs.length (components hs)) op.span

/-- There is an initial array for each component. -/
def checkDests (h : Histogram) (span : Option Span) : Lowering Unit :=
  Lowering.check (h.dests.length == h.lambda.arity) (.histogramDests h.dests.length h.lambda.arity)
    (h.lambda.span <|> span)

/-- The coordinates of the bucket of a point: its outer indices, and then its bin. -/
def coordinates (h : Histogram) (space : IterationSpace) (bin : Exp) (span : Option Span) : Lowering (List Exp) := do
  let outer := h.outerShape.length
  Lowering.check (outer + 1 ≤ max space.rank 1) (.histogramRank (outer + 1) space.rank) span
  Lowering.inRange outer space.rank
  return space.indexExps.take outer ++ [bin.toType .i64]

/-- Takes the values of a point into its bucket, if there is one. -/
def bucketCode (h : Histogram) (update : AtomicUpdate) (locking : Option Locking) (dests : List View)
    (space : IterationSpace) (span : Option Span) (bin : Exp) (values : List Exp) : Lowering Stmt := do
  let coords ← h.coordinates space bin span
  let code ← update.code h.lambda locking dests (.flatten h.shapeExps coords) values
  return .when (indicesInBounds h.shapeExps coords) code

/-- The updates of all histograms at a point. `plain` gives the value of a result. -/
def updateCode (locking : Option Locking) (space : IterationSpace) (span : Option Span)
    (plain : BodyResult → Lowering Exp) :
    List ((Histogram × AtomicUpdate) × List View) → (bins values : List BodyResult) → Lowering (List Stmt)
  | ((h, update), dests) :: hs, bin :: bins, values => do
    let bin ← plain bin
    Lowering.inRange h.lambda.arity values.length
    let own ← (values.take h.lambda.arity).mapM plain
    let code ← h.bucketCode update locking dests space span bin own
    return code :: (← updateCode locking space span plain hs bins (values.drop h.lambda.arity))
  | _, _, _ => return []

end Histogram
end SegKernel
