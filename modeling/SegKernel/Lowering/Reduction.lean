import SegKernel.Lowering.Map

/-! Reductions over a whole launch, in two kernels. In the first one each thread folds its share of the
    points, and each group reduces what its threads have. In the second one a single group does the
    same with the results of the groups. -/

namespace SegKernel

/-- The variables in which a thread accumulates one operator, a variable for each neutral element. -/
structure Accumulator where
  op : Combiner
  vars : List Ident

namespace Accumulator

def ofOp (op : Combiner) : Fresh Accumulator := do return ⟨op, ← freshFor "acc" op.neutral⟩

/-- Declares the variables, with the neutral elements in them. -/
def declare (a : Accumulator) : Stmt :=
  .block <| ((a.vars.zip a.op.lambda.resultTypes).zip a.op.neutral).map fun ((v, type), neutral) =>
    .declareInit v type neutral.toExp

/-- Takes a value into each variable, for one operator after another. -/
def foldAll : List Accumulator → (values : List Exp) → Lowering (List Stmt)
  | [], _ => return []
  | a :: as, values => do
    Lowering.inRange a.vars.length values.length
    let code ← a.op.lambda.assign (a.vars.map .var) (values.take a.vars.length) a.vars
    return code :: (← foldAll as (values.drop a.vars.length))

/-- Reduces the variables of all threads of a group, and lets the first thread store the results. -/
def combineOne (launch : Launch) (a : Accumulator) (dests : List View) (index : Exp) : Fresh Stmt := do
  let names ← freshFor "red_arr" (a.vars.zip a.op.lambda.resultTypes)
  let views := (names.zip a.op.lambda.resultTypes).map fun (n, type) => (⟨n, type, .shared, false⟩ : View)
  let put := (views.zip a.vars).flatMap fun (view, v) =>
    [Stmt.declareArray view.array view.type launch.groupSize .shared, .write view launch.ltid (.var v)]
  let reduction ← (Collective.mk launch a.op.lambda views (.shared (.int 0))).reduce launch.groupSize
  let store ← (views.zip dests).mapM fun (view, dest) => do
    let v ← fresh "red_res"
    return [Stmt.declare v view.type false, .read v view (.int 0), .write dest index (.var v)]
  return .block (put ++ [.barrier .shared, reduction, .barrier .shared,
    .when (launch.ltid.equals (.int 0)) (.block store.flatten)])

/-- Reduces and stores one operator after another; each takes its destinations from the list. -/
def combineAll (launch : Launch) (index : Exp) : List Accumulator → (dests : List View) → Fresh (List Stmt)
  | [], _ => return []
  | a :: as, dests => do
    let code ← combineOne launch a dests index
    let used := min a.vars.length a.op.lambda.resultTypes.length
    return code :: (← combineAll launch index as (dests.drop used))

end Accumulator

namespace Lowering

/-- The arrays and values of a reduction. -/
structure ReductionParts where
  dests : List View
  contributions : List Exp
  mapped : BoundResults

/-- Checks a reduction, and finds what it reduces and where the results go. -/
def reductionParts (pattern : List PatElem) (op : SegOp) (ops : List Combiner) : Lowering ReductionParts := do
  if op.space.rank ≠ 1 then limitation (.reductionRank op.space.rank) op.span
  match ops.find? (!·.isScalar) with
  | some bad => limitation .reductionShape (bad.lambda.span <|> op.span)
  | none => pure ()
  let components := ops.foldl (fun n op => n + op.lambda.arity) 0
  check (components ≤ pattern.length ∧ op.results.length = pattern.length)
    (.reductionCounts op.results.length pattern.length components) op.span
  inRange components op.results.length
  let contributions ← (op.results.take components).mapM fun result => do
    return (← result.plain .reductionValue op.span).toExp
  inRange components pattern.length
  let dests ← (pattern.take components).mapM fun p => do
    return (← globalArray p.name "segred" op.span).view
  return { dests, contributions, mapped := (pattern.zip op.results).drop components }

/-- The first kernel: folds the points, each thread its own, and stores one partial result for each
    group. The points of a thread lie next to each other, unless no operator minds their order. -/
def reducePoints (op : SegOp) (ops : List Combiner) (parts : ReductionParts) (partials : List View) :
    Lowering Unit := do
  let (launch, entry) ← Launch.start op.grid.groupCount op.grid.groupWidth
  let accs ← ops.mapM fun op => (Accumulator.ofOp op : Fresh _)
  -- There is one dimension, of which the extent and the index are taken.
  inRange 1 op.space.rank
  let n := Exp.product op.space.dimExps
  let perThread ← fresh "elems_per_thread"
  let k ← fresh "k"
  let point := if ops.all (·.commutative) then Exp.var k * launch.numThreads + launch.gtid
    else launch.gtid * .var perThread + .var k
  let (body, scope) ← BodyStm.threadBody { launch, span := op.span } op.stms
  let mapped ← scope.threadResults op.space parts.mapped
  let fold ← Accumulator.foldAll accs parts.contributions
  let indices := op.space.indices.map fun i => Stmt.declareInit i .i64 (.var op.space.flat)
  let visit := Stmt.block ([.declareInit op.space.flat .i64 point] ++ indices ++ [body, mapped] ++ fold)
  let store ← Accumulator.combineAll launch launch.gid accs partials
  emitKernel "segred_stage1" op.grid.groupCount op.grid.groupWidth <| .block <|
    [entry] ++ accs.map Accumulator.declare ++
    [.declareInit perThread .i64 (n.divUp launch.numThreads),
      .comment "fold this thread's chunk" (.loop k (.var perThread) (.when (point.lt n) visit))] ++ store

/-- The second kernel: one group folds the partial results in order. -/
def reducePartials (op : SegOp) (ops : List Combiner) (partials dests : List View) : Lowering Unit := do
  let numPartials := op.grid.groupCount
  let (launch, entry) ← Launch.start (.int 1) op.grid.groupWidth
  let accs ← ops.mapM fun op => (Accumulator.ofOp op : Fresh _)
  let perThread ← fresh "partials_per_thread"
  let k ← fresh "k"
  let point := launch.ltid * .var perThread + .var k
  let names ← freshFor "partial" partials
  let loads := (partials.zip names).flatMap fun (view, v) => [Stmt.declare v view.type false, .read v view point]
  let fold ← Accumulator.foldAll accs (names.map .var)
  let store ← Accumulator.combineAll launch (.int 0) accs dests
  emitKernel "segred_stage2" (.int 1) op.grid.groupWidth <| .block <|
    [entry] ++ accs.map Accumulator.declare ++
    [.declareInit perThread .i64 (numPartials.divUp op.grid.groupWidth),
      .comment "fold this thread's partials"
        (.loop k (.var perThread) (.when (point.lt numPartials) (.block (loads ++ fold))))] ++ store

/-- A reduction of all points of a space of one dimension. -/
def reduceByThreads (pattern : List PatElem) (op : SegOp) (ops : List Combiner) : Lowering Unit := do
  let parts ← reductionParts pattern op ops
  let partials ← (ops.flatMap (·.lambda.resultTypes)).mapM fun type =>
    allocate "segred_partials" type op.grid.groupCount
  reducePoints op ops parts partials
  reducePartials op ops partials parts.dests

end Lowering
end SegKernel
