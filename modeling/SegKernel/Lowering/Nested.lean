import SegKernel.Atomic.Update
import SegKernel.Collective.Reduction
import SegKernel.Collective.Scan
import SegKernel.Lowering.Buckets
import SegKernel.Lowering.Results

/-! Operations inside the body of a group, run by its threads together. Their results are shared arrays,
    or variables of which all threads have the same value. -/

namespace SegKernel

/-- The shared arrays that a pattern binds. -/
def patternArrays (pattern : List PatElem) : List (Ident × ArrayInfo) :=
  (pattern.filter (!·.shape.isEmpty)).map fun p =>
    (p.name, ⟨⟨p.name, p.type, .shared, false⟩, p.shape.map Operand.toExp⟩)

/-- Declares the variables and arrays that a pattern binds. -/
def declarePattern (pattern : List PatElem) : Stmt :=
  .block <| pattern.map fun p =>
    if p.shape.isEmpty then .declare p.name p.type false
    else .declareArray p.name p.type (.product (p.shape.map Operand.toExp)) .shared

namespace Nested

/-- An operation inside a group's body, with the scope around it. -/
structure Context where
  scope : BodyScope
  op : SegOp

namespace Context

def kind (c : Context) : String := c.op.kind.name
def launch (c : Context) : Launch := c.scope.launch
def size (c : Context) : Exp := c.op.space.size
def isVirtualized (c : Context) : Bool := c.op.grid.coverage == .virtualize

/-- The array that a pattern element names in a scope. -/
def outputIn (c : Context) (scope : BodyScope) (p : PatElem) : Lowering ArrayInfo :=
  Lowering.require (scope.kernelArray? p.name) (.nestedDest p.name c.kind) c.op.span

/-- The array that a pattern element binds. -/
def output (c : Context) (p : PatElem) : Lowering ArrayInfo := c.outputIn c.scope p

def plain (c : Context) (result : BodyResult) : Lowering Operand := result.plain (.nestedValue c.kind) c.op.span

/-- The extent of the innermost dimension, if there are others around it. -/
def segmentSize? (c : Context) : Option Exp :=
  if c.op.space.rank < 2 then none else c.op.space.dimExps.getLast?

/-- Stores the mapped results of a point; `inner` is the scope after its body. -/
def mappedStores (c : Context) (inner : BodyScope) (results : BoundResults) : Lowering Stmt := do
  let code ← results.mapM fun (p, result) =>
    match result with
    | .returns value => do inner.store (← c.outputIn inner p) c.op.space.indexExps value
    | _ => Lowering.limitation (.nestedResult c.kind) c.op.span
  return .block code

/-- Surrounds the code of a point. -/
def cover (c : Context) (code : List Stmt) : Lowering Stmt := do
  let nest ← c.launch.coverSpace c.op.grid.coverage c.op.space
  return nest.wrap (.block code)

/-- The code of the body, run by single threads, and the scope after it. -/
def body (c : Context) : Lowering (Stmt × BodyScope) := BodyStm.threadBody (c.scope.nested c.op.span) c.op.stms

/-! ### Operators -/

/-- The counts of neutral elements, results and destinations agree with the operators. -/
def checkComponents (c : Context) (pattern : List PatElem) (ops : List Combiner) : Lowering Unit := do
  match ops.find? fun op => op.neutral.length != op.lambda.arity with
  | some op =>
    Lowering.defect (.nestedNeutral op.neutral.length op.lambda.arity c.kind) (op.lambda.span <|> c.op.span)
  | none =>
    let components := ops.foldl (fun n op => n + op.lambda.arity) 0
    let results := c.op.results.length
    Lowering.check (components ≤ pattern.length ∧ results = pattern.length)
      (.nestedCounts results pattern.length components c.kind) c.op.span

/-- Memory for the elements of an operator on arrays: a row for each thread of the launch in each of
    some regions. -/
def scratch (c : Context) (op : Combiner) (regions : Int64) : Lowering (List View × Layout) := do
  let regionLength := c.launch.numThreads * op.lanes
  let views ← op.lambda.resultTypes.mapM fun type =>
    Lowering.allocate "group_scratch" type (.int regions * regionLength)
  return (views, .rows op.lanes regionLength)

/-- Stores what a point contributes to a component of an operator. -/
def storeContribution (c : Context) (inner : BodyScope) (layout : Layout) (view : View) (result : BodyResult) :
    Lowering Stmt := do
  let value ← c.plain result
  let element : Cell := { element := .var c.op.space.flat }
  match layout with
  | .shared _ => return .write view (layout.address c.launch element (.int 0)) value.toExp
  | .rows lanes _ =>
    let source ← Lowering.require (inner.operandArray? value) (.scalarContribution c.kind) c.op.span
    let j ← fresh "lane"
    let v ← fresh "elem"
    return .loop j lanes <| .block [
      .declare v source.view.type false,
      .read v source.view (.var j),
      .write view (layout.address c.launch element (.var j)) (.var v)]

/-- Scans all elements. -/
def scanAll (c : Context) (lambda : Lambda) (views : List View) (layout : Layout) : Fresh Stmt :=
  let test := c.segmentSize?.map crossesSegment
  if c.isVirtualized then Collective.scanChunks c.launch lambda views test c.size
  else (Collective.mk c.launch lambda views layout).scan test c.size

/-- What an operator adds to an operation: declarations before the points are visited, code at each
    point, and code after all of them. -/
structure Part where
  declares : List Stmt := []
  stores : List Stmt := []
  steps : List Stmt := []
  /-- The memory in which the elements lie. -/
  fence : Fence := .shared

/-- The parts of all operators, each with the results of its components, and the results that are left
    over. -/
def parts (make : Combiner → BoundResults → Lowering Part) :
    List Combiner → BoundResults → Lowering (List Part × BoundResults)
  | [], results => return ([], results)
  | op :: ops, results => do
    Lowering.inRange op.lambda.arity results.length
    let part ← make op (results.take op.lambda.arity)
    let (parts, rest) ← parts make ops (results.drop op.lambda.arity)
    return (part :: parts, rest)

/-- The memory that the barrier after the points must order. -/
def fenceOf (parts : List Part) : Fence := if parts.any (·.fence == .global) then .global else .shared

/-- An operation with operators: visits the points, and then lets the operators work on the elements. -/
def withOperators (c : Context) (pattern : List PatElem) (ops : List Combiner)
    (make : BodyScope → Combiner → BoundResults → Lowering Part) : Lowering Stmt := do
  c.checkComponents pattern ops
  let (code, inner) ← c.body
  let (parts, mapped) ← parts (make inner) ops (pattern.zip c.op.results)
  let mapped ← c.mappedStores inner mapped
  let visit ← c.cover [code, .block (parts.flatMap (·.stores)), mapped]
  return .block [.block (parts.flatMap (·.declares)), visit, .barrier (fenceOf parts),
    .block (parts.flatMap (·.steps))]

/-- Copies the rows of the threads that have an element to the destinations. -/
def copyRows (c : Context) (views : List View) (layout : Layout) (lanes : Exp) (outputs : List PatElem) :
    Lowering Stmt := do
  let ltid := c.launch.ltid
  let j ← fresh "lane"
  let code ← (views.zip outputs).mapM fun (view, p) => do
    let dest ← c.output p
    let v ← fresh "elem"
    return [Stmt.declare v view.type false, .read v view (layout.address c.launch { element := ltid } (.var j)),
      .write dest.view (ltid * lanes + .var j) (.var v)]
  return .when (ltid.lt c.size) (.loop j lanes (.block code.flatten))

/-- The part of an operator of a scan. Scalars are scanned in the destination itself. -/
def scanPart (c : Context) (inner : BodyScope) (op : Combiner) (results : BoundResults) : Lowering Part := do
  let outputs := results.map (·.1)
  if op.isScalar then
    let views := (← outputs.mapM c.output).map (·.view)
    let layout := Layout.shared (.int 0)
    let stores ← (views.zip (results.map (·.2))).mapM fun (view, result) =>
      c.storeContribution inner layout view result
    return { stores, steps := [← c.scanAll op.lambda views layout] }
  else
    if c.isVirtualized then Lowering.limitation (.chunkedShape c.kind) c.op.span
    else
      let (views, layout) ← c.scratch op 3
      let stores ← (views.zip (results.map (·.2))).mapM fun (view, result) =>
        c.storeContribution inner layout view result
      let scan ← c.scanAll op.lambda views layout
      let copy ← c.copyRows views layout op.lanes outputs
      return { stores, steps := [scan, copy], fence := .global }

/-- Reads totals out of the elements: total `s` is the element at `position s`, or the neutral element
    where there are no elements. -/
def readTotals (c : Context) (op : Combiner) (views : List View) (layout : Layout) (outputs : List PatElem)
    (count : Exp) (position : Exp → Exp) (nonempty : Exp) : Lowering Stmt := do
  let components := (views.zip outputs).zip op.neutral
  if outputs.all (·.shape.isEmpty) && op.isScalar && count = .int 1 then
    let index := layout.address c.launch { element := position (.int 0) } (.int 0)
    return .block <| components.map fun ((view, p), neutral) =>
      .branch nonempty (.read p.name view index) (.set p.name neutral.toExp)
  else
    let lanes := if op.isScalar then .int 1 else op.lanes
    let (i, nest) ← c.launch.coverNumbers (count * lanes)
    let index := layout.address c.launch { element := position (i / lanes) } (i % lanes)
    let code ← components.mapM fun ((view, p), neutral) => do
      let dest ← c.output p
      let v ← fresh "total"
      return [Stmt.declare v view.type false, .branch nonempty (.read v view index) (.set v neutral.toExp),
        .write dest.view i (.var v)]
    return nest.wrap (.block code.flatten)

/-- Reduces all elements and reads the one total. -/
def reduceWhole (c : Context) (op : Combiner) (views : List View) (layout : Layout) (outputs : List PatElem) :
    Lowering (List Stmt) := do
  let reduction ← if c.isVirtualized then Collective.reduceChunks c.launch op.lambda views c.size
    else (Collective.mk c.launch op.lambda views layout).reduce c.size
  let totals ← c.readTotals op views layout outputs (.int 1) (fun _ => .int 0) (c.size.gt (.int 0))
  return [reduction, .barrier layout.fence, totals]

/-- Scans the elements in segments and reads the last element of each one. -/
def reduceSegments (c : Context) (segment : Exp) (op : Combiner) (views : List View) (layout : Layout)
    (outputs : List PatElem) : Lowering (List Stmt) := do
  let scan ← c.scanAll op.lambda views layout
  Lowering.inRange 1 c.op.space.rank
  let count := Exp.product c.op.space.dimExps.dropLast
  let totals ← c.readTotals op views layout outputs count (fun s => s * segment + segment - .int 1)
    (segment.gt (.int 0))
  return [scan, totals]

/-- The part of an operator of a reduction. -/
def reducePart (c : Context) (inner : BodyScope) (op : Combiner) (results : BoundResults) : Lowering Part := do
  let outputs := results.map (·.1)
  let (views, layout, declares) ← if op.isScalar then do
      let views ← op.lambda.resultTypes.mapM fun type => do
        return (⟨← fresh "red_arr", type, .shared, false⟩ : View)
      pure (views, Layout.shared (.int 0),
        views.map fun v => Stmt.declareArray v.array v.type c.size .shared)
    else if c.isVirtualized then Lowering.limitation (.chunkedShape c.kind) c.op.span
    else do
      let (views, layout) ← c.scratch op (if c.segmentSize?.isSome then 3 else 1)
      pure (views, layout, [])
  let stores ← (views.zip (results.map (·.2))).mapM fun (view, result) =>
    c.storeContribution inner layout view result
  let steps ← match c.segmentSize? with
    | none => c.reduceWhole op views layout outputs
    | some segment => c.reduceSegments segment op views layout outputs
  return { declares, stores, steps, fence := layout.fence }

/-! ### The four kinds -/

def mapCode (c : Context) (pattern : List PatElem) : Lowering Stmt := do
  let (code, inner) ← c.body
  let stores ← c.mappedStores inner (pattern.zip c.op.results)
  c.cover [code, stores]

/-- Fills a destination with its initial contents. -/
def seedOne (c : Context) (p : PatElem) (initial : Ident) : Lowering (Stmt × View) := do
  let dest ← c.output p
  let source ← Lowering.require (← c.scope.array? initial) (.unknownInitial initial) c.op.span
  let (i, nest) ← c.launch.coverNumbers dest.length
  let v ← fresh "bin"
  return (nest.wrap (source.moveElement dest v i i), dest.view)

/-- Fills the destinations of all histograms, and gives their views for each histogram. -/
def seedAll (c : Context) : List Histogram → List PatElem → Lowering (List Stmt × List (List View))
  | [], _ => return ([], [])
  | h :: hs, pattern => do
    h.checkDests c.op.span
    Lowering.inRange h.lambda.arity pattern.length
    let seeded ← ((pattern.take h.lambda.arity).zip h.dests).mapM fun (p, initial) => c.seedOne p initial
    let (code, views) ← seedAll c hs (pattern.drop h.lambda.arity)
    return (seeded.map (·.1) ++ code, seeded.map (·.2) :: views)

/-- A lock for each thread of the group, and the code that frees them all. -/
def sharedLocks (c : Context) : Lowering (Locking × List Stmt) := do
  let locks : View := ⟨← fresh "locks", .i32, .shared, false⟩
  let (i, nest) ← c.launch.coverNumbers c.launch.groupSize
  return (⟨locks, c.launch.groupSize⟩, [
    .declareArray locks.array .i32 c.launch.groupSize .shared,
    nest.wrap (.write locks i (.i32 Locking.unlocked))])

/-- Visits the points of a histogram, whose destinations are filled. -/
def updateBuckets (c : Context) (pattern : List PatElem) (hs : List Histogram) (locking : Option Locking)
    (updates : List AtomicUpdate) (dests : List (List View)) : Lowering Stmt := do
  let (code, inner) ← c.body
  Lowering.inRange hs.length c.op.results.length
  let contributions ← Histogram.updateCode locking c.op.space c.op.span
    (fun result => do return (← c.plain result).toExp)
    ((hs.zip updates).zip dests) (c.op.results.take hs.length) (c.op.results.drop hs.length)
  let mapped ← c.mappedStores inner (← Histogram.mappedResults hs pattern c.op.results)
  c.cover (code :: contributions ++ [mapped])

def histogramCode (c : Context) (pattern : List PatElem) (hs : List Histogram) : Lowering Stmt := do
  Histogram.checkCounts hs c.op pattern
  let (seed, dests) ← c.seedAll hs pattern
  let table := (← read).config.atomics
  let updates := hs.map fun h => h.lambda.atomicUpdate table
  let (locking, freeLocks) ← if updates.any (·.needsLocks) then do
      let (locking, code) ← c.sharedLocks
      pure (some locking, code)
    else pure (none, [])
  let visit ← c.updateBuckets pattern hs locking updates dests
  return .block (seed ++ freeLocks ++ [.barrier .shared, visit])

end Context

/-- The code of a nested operation, with a barrier at its end, and the scope that has its results. -/
def code : BodyStm.NestedCode := fun scope pattern op => do
  let kind := op.kind.name
  Lowering.check (op.grid.level == .thread) (.groupLevelNested kind) op.span
  let scope := scope.addArrays (patternArrays pattern)
  let c : Context := ⟨scope, op⟩
  let body ← match op.kind with
    | .map => c.mapCode pattern
    | .scan ops => c.withOperators pattern ops c.scanPart
    | .reduce ops => c.withOperators pattern ops c.reducePart
    | .histogram hs => c.histogramCode pattern hs
  return (.comment kind (.block [declarePattern pattern, body, .barrier .shared]), scope)

end Nested

/-- The code of a body that the threads of a group run together. -/
def BodyStm.groupBody (scope : BodyScope) (stms : List BodyStm) : Lowering (Stmt × BodyScope) := do
  let (code, scope) ← codeAll Nested.code scope stms
  return (.block code, scope)

end SegKernel
