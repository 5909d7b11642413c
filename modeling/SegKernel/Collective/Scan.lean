import SegKernel.Collective.Layout

/-! Inclusive scans by the threads of a group. The threads form blocks. Each block scans its elements,
    the last thread of a block publishes the total, the first block scans the totals, and the other
    blocks take in the total of all blocks before them. -/

namespace SegKernel

/-- The number of threads in a block; its square bounds the size of a group that scans. -/
def scanBlockSize : Int64 := 32

/-- Tells for two positions whether a segment starts after the first and not after the second. -/
abbrev SegmentTest := Exp → Exp → Exp

/-- The test for segments of equal size. -/
def crossesSegment (segmentSize : Exp) : SegmentTest := fun a b => (b - a).gt (b % segmentSize)

/-- The test for the last positions of blocks. -/
def SegmentTest.ofBlocks (test : SegmentTest) : SegmentTest := fun a b =>
  let last (block : Exp) : Exp := block * .int scanBlockSize + .int scanBlockSize - .int 1
  test (last a) (last b)

/-- The test for positions that are counted from `start`. -/
def SegmentTest.shift (test : SegmentTest) (start : Exp) : SegmentTest := fun a b => test (a + start) (b + start)

/-- Code that sets variables to the results of an operator. The variables may occur in its operands. -/
def Lambda.assign (l : Lambda) (xs ys : List Exp) (dests : List Ident) : Fresh Stmt := do
  let results := l.apply xs ys
  if results.length = 1 then return .block ((dests.zip results).map fun (d, r) => .set d r)
  else
    let temps ← freshFor "res" results
    let compute := ((temps.zip results).zip l.resultTypes).map fun ((t, r), type) => Stmt.declareInit t type r
    return .block (compute ++ (dests.zip temps).map fun (d, t) => .set d (.var t))

/-- The variables that hold the place of a thread in the blocks. -/
structure BlockIds where
  block : Ident
  inBlock : Ident
  inBounds : Ident

namespace BlockIds

/-- Declares the place of a thread, and whether it has one of the first `w` elements. -/
def declare (l : Launch) (w : Exp) : Fresh (BlockIds × Stmt) := do
  let block ← fresh "block_id"
  let inBlock ← fresh "in_block_id"
  let inBounds ← fresh "ltid_in_bounds"
  return (⟨block, inBlock, inBounds⟩, .block [
    .declareInit block .i64 (l.ltid / .int scanBlockSize),
    .declareInit inBlock .i64 (l.ltid - .var block * .int scanBlockSize),
    .declareInit inBounds .bool (l.ltid.lt w)])

def isFirstBlock (ids : BlockIds) : Exp := (Exp.var ids.block).equals (.int 0)
def isLastInBlock (ids : BlockIds) : Exp := (Exp.var ids.inBlock).equals (.int (scanBlockSize - 1))

end BlockIds

def declareAll (names : List Ident) (types : List ScalarType) : Stmt :=
  .block ((names.zip types).map fun (n, t) => .declare n t false)

/-- Sets variables to other variables. -/
def setAll (dests sources : List Ident) : Stmt := .block ((dests.zip sources).map fun (d, s) => .set d (.var s))

/-- Reads one element of each array. -/
def readAll (views : List View) (dests : List Ident) (index : Exp) : Stmt :=
  .block ((views.zip dests).map fun (v, d) => .read d v index)

/-- Writes one element of each array. -/
def writeAll (views : List View) (sources : List Ident) (index : Exp) : Stmt :=
  .block ((views.zip sources).map fun (v, s) => .write v index (.var s))

namespace Collective

/-! ### Scalars in shared memory

Each thread holds its own value in variables. -/

/-- Scans each block, for the threads for which `active` holds. Gives the variables that hold the
    scanned values. A wave that holds a whole block needs no barriers. -/
def scanBlocks (c : Collective) (test : Option SegmentTest) (base : Exp) (ids : BlockIds) (active : Exp) :
    Fresh (Stmt × List Ident) := do
  let types := c.lambda.resultTypes
  let xs ← freshFor "x" types
  let ys ← freshFor "y" types
  let skip ← fresh "skip_threads"
  let inactive ← fresh "inactive"
  let views := c.views.map View.uncached
  let ltid := c.launch.ltid
  let inBlock := Exp.var ids.inBlock
  let readInput := Stmt.when active <| .block [
    readAll views ys (base + ltid),
    .when (inBlock.equals (.int 0)) (setAll xs ys)]
  let takesPart := ((Exp.var skip).le inBlock).both active
  let barrier := Stmt.when (c.launch.wave.lt (.int scanBlockSize)) (.barrier .shared)
  let readOperands := Stmt.when takesPart (readAll views xs (base + ltid - .var skip))
  let apply ← c.lambda.assign (xs.map .var) (ys.map .var) xs
  let combineIntoX := match test with
    | none => Stmt.when takesPart apply
    | some test => .block [
        .set inactive (takesPart.both (test (ltid - .var skip) ltid)),
        .when (.var inactive) (setAll xs ys),
        .when (takesPart.both (Exp.var inactive).negation) apply]
  let writeResult := Stmt.when takesPart <| .block [writeAll views xs (base + ltid), setAll ys xs]
  let code := Stmt.block [
    declareAll xs types,
    declareAll ys types,
    .declare skip .i64 false,
    .declare inactive .bool false,
    .comment "read input for in-block scan" readInput,
    .set skip (.int 1),
    .comment "in-block scan" <| .repeatWhile ((Exp.var skip).lt (.int scanBlockSize)) <| .block [
      readOperands, barrier, combineIntoX, barrier, writeResult, barrier,
      .set skip (.var skip * .int 2)]]
  return (code, xs)

/-- Scans the first `w` elements, which lie in shared memory from `base` on. -/
def scanScalars (c : Collective) (test : Option SegmentTest) (base w : Exp) : Fresh Stmt := do
  let ltid := c.launch.ltid
  let (ids, declareIds) ← BlockIds.declare c.launch w
  let block := Exp.var ids.block
  let inBounds := Exp.var ids.inBounds
  let uncached := c.views.map View.uncached
  let (blockScan, xs) ← c.scanBlocks test base ids inBounds
  let publish := Stmt.when (ids.isLastInBlock.both inBounds) (writeAll uncached xs (base + block))
  let (carryScan, _) ← c.scanBlocks (test.map SegmentTest.ofBlocks) base ids (ids.isFirstBlock.both inBounds)
  let types := c.lambda.resultTypes
  let own ← freshFor "own" types
  let noCarryIn ← fresh "no_carry_in"
  let hasCarry := (Exp.var noCarryIn).negation
  let readCarry := Stmt.when hasCarry <| .block [setAll own xs, readAll uncached xs (base + block - .int 1)]
  let apply ← c.lambda.assign (xs.map .var) (own.map .var) xs
  let combineIntoX ← match test with
    | none => pure (Stmt.when hasCarry apply)
    | some test => do
      let inactive ← fresh "inactive"
      pure <| Stmt.block [
        .declareInit inactive .bool (hasCarry.both (test (block * .int scanBlockSize - .int 1) ltid)),
        .when (.var inactive) (setAll xs own),
        .when (hasCarry.both (Exp.var inactive).negation) apply]
  let writeBack := writeAll c.views xs (base + ltid)
  return .block [
    declareIds,
    blockScan,
    .barrier .shared,
    .comment "last thread of block 'i' writes its result to offset 'i'" publish,
    .barrier .shared,
    .comment "scan the first block, after which offset 'i' contains carry-in for block 'i+1'" carryScan,
    .barrier .shared,
    declareAll own types,
    .declareInit noCarryIn .bool (ids.isFirstBlock.either inBounds.negation),
    .comment "carry-in for every block except the first" <| .block [
      readCarry, combineIntoX, .when hasCarry writeBack],
    .barrier .shared,
    .comment "restore correct values for first block" (.when (ids.isFirstBlock.both inBounds) writeBack),
    .barrier .shared]

/-! ### Rows in global memory

Values are never held in variables. The main region holds the elements; the second one holds what a
step makes, so that no thread overwrites an operand which another one has yet to read; the third one
keeps the first block while its rows hold the totals of the blocks. -/

def mainCell (element : Exp) : Cell := ⟨0, element⟩
def tempCell (element : Exp) : Cell := ⟨1, element⟩
def savedCell (element : Exp) : Cell := ⟨2, element⟩

/-- Scans each block of rows, for the threads for which `active` holds. -/
def scanRowBlocks (c : Collective) (test : Option SegmentTest) (ids : BlockIds) (active : Exp) : Fresh Stmt := do
  let skip ← fresh "skip_threads"
  let ltid := c.launch.ltid
  let takesPart := ((Exp.var skip).le (.var ids.inBlock)).both active
  let keepOwn := test.map fun test => test (ltid - .var skip) ltid
  let step ← c.combine (tempCell ltid) (mainCell (ltid - .var skip)) (mainCell ltid) keepOwn true
  let commit ← c.copy (mainCell ltid) (tempCell ltid)
  return .block [
    .declareInit skip .i64 (.int 1),
    .repeatWhile ((Exp.var skip).lt (.int scanBlockSize)) <| .block [
      .when takesPart step,
      .barrier .global,
      .when takesPart commit,
      .barrier .global,
      .set skip (.var skip * .int 2)]]

/-- Scans the first `w` rows. -/
def scanRows (c : Collective) (test : Option SegmentTest) (w : Exp) : Fresh Stmt := do
  let ltid := c.launch.ltid
  let (ids, declareIds) ← BlockIds.declare c.launch w
  let block := Exp.var ids.block
  let inBounds := Exp.var ids.inBounds
  let fullBlocks := w / .int scanBlockSize
  let blockScan ← c.scanRowBlocks test ids inBounds
  let firstInBounds := ids.isFirstBlock.both inBounds
  let save ← c.copy (savedCell ltid) (mainCell ltid)
  let publish ← c.copy (tempCell block) (mainCell ltid)
  let holdsTotal := ids.isFirstBlock.both (ltid.lt fullBlocks)
  let gather ← c.copy (mainCell ltid) (tempCell ltid)
  let carryScan ← c.scanRowBlocks (test.map SegmentTest.ofBlocks) ids holdsTotal
  let hasCarry := ids.isFirstBlock.negation.both inBounds
  let keepOwn := test.map fun test => test (block * .int scanBlockSize - .int 1) ltid
  let carryIn ← c.combine (mainCell ltid) (mainCell (block - .int 1)) (mainCell ltid) keepOwn true
  let restore ← c.copy (mainCell ltid) (savedCell ltid)
  return .block [
    declareIds,
    blockScan,
    .comment "save correct values for first block" (.when firstInBounds save),
    .barrier .global,
    .comment "last thread of block 'i' stages its result for offset 'i'"
      (.when (ids.isLastInBlock.both inBounds) publish),
    .barrier .global,
    .when holdsTotal gather,
    .barrier .global,
    .comment "scan the first block, after which offset 'i' contains carry-in for block 'i+1'" carryScan,
    .comment "carry-in for every block except the first" (.when hasCarry carryIn),
    .barrier .global,
    .comment "restore correct values for first block" (.when firstInBounds restore),
    .barrier .global]

/-! ### Any layout and any length -/

/-- Scans the first `w` elements in place, where `w` is at most the group size. Ends with a barrier. -/
def scan (c : Collective) (test : Option SegmentTest) (w : Exp) : Fresh Stmt := do
  let code ← match c.layout with
    | .shared base => c.scanScalars test base w
    | .rows .. => c.scanRows test w
  return .comment "group scan" code

/-- Scans the first `w` elements of shared memory chunk by chunk; the first thread takes the last result
    of a chunk into the next one, except where a segment starts there. -/
def scanChunks (launch : Launch) (lambda : Lambda) (views : List View) (test : Option SegmentTest) (w : Exp) :
    Fresh Stmt := do
  let (start, size, nest) ← launch.coverChunks w
  let previous := start - .int 1
  let crosses := match test with
    | some test => test previous start
    | none => .bool false
  let whole : Collective := ⟨launch, lambda, views, .shared (.int 0)⟩
  let chunk : Collective := ⟨launch, lambda, views, .shared start⟩
  let carries := ((start.gt (.int 0)).both (launch.ltid.equals (.int 0))).both crosses.negation
  let carryIn ← whole.combine { element := start } { element := previous } { element := start } none false
  let scan ← chunk.scan (test.map (·.shift start)) size
  return nest.wrap <| .block [
    .comment "possibly incorporate carry" (.when carries carryIn),
    .barrier .shared,
    scan]

end Collective
end SegKernel
