import SegKernel.Collective.Layout

/-! Reduction by the threads of a group. In each step the first of each pair of neighbours takes in the
    second one, so the order of the elements is kept. -/

namespace SegKernel.Collective

/-- Whether a number is the first of a pair at a distance of `stride`, which is a power of two. -/
def isFirstOfPair (id stride : Exp) : Exp :=
  (id.bitAnd (.int 2 * stride - .int 1)).equals (.int 0)

/-- Reduces the first `w` elements into element zero, where `w` is at most the group size. The steps
    inside a wave need no barriers. Each step across waves starts with one. -/
def reduce (c : Collective) (w : Exp) : Fresh Stmt := do
  let wave ← fresh "wave"
  let waveId ← fresh "wave_id"
  let inWaveId ← fresh "in_wave_id"
  let numWaves ← fresh "num_waves"
  let offset ← fresh "offset"
  let skipWaves ← fresh "skip_waves"
  let ltid := c.launch.ltid
  let own : Cell := { element := ltid }
  let partner : Cell := { element := ltid + .var offset }
  let hasPartner := (ltid + .var offset).lt w
  let inWaveStep ← c.combine own own partner none true
  let crossWaveStep ← c.combine own own partner none c.layout.isRows
  let inWave := Stmt.repeatWhile ((Exp.var offset).lt (.var wave)) <| .block [
    .when (hasPartner.both (isFirstOfPair (.var inWaveId) (.var offset))) inWaveStep,
    .set offset (.var offset * .int 2)]
  let crossWave := Stmt.repeatWhile ((Exp.var skipWaves).lt (.var numWaves)) <| .block [
    .barrier c.layout.fence,
    .set offset (.var skipWaves * .var wave),
    .when ((hasPartner.both ((Exp.var inWaveId).equals (.int 0))).both
      (isFirstOfPair (.var waveId) (.var skipWaves))) crossWaveStep,
    .set skipWaves (.var skipWaves * .int 2)]
  return .comment "group reduction" <| .block [
    .declareInit wave .i64 (c.launch.wave.maximum (.int 1)),
    .declareInit waveId .i64 (ltid / .var wave),
    .declareInit inWaveId .i64 (ltid - .var waveId * .var wave),
    .declareInit numWaves .i64 (c.launch.groupSize.divUp (.var wave)),
    .declareInit offset .i64 (.int 1),
    .declareInit skipWaves .i64 (.int 1),
    .comment "in-wave reductions" inWave,
    .comment "cross-wave reductions" crossWave]

/-- Reduces the first `w` elements of shared memory into element zero, chunk by chunk; the first thread
    takes the result so far into each next chunk. -/
def reduceChunks (launch : Launch) (lambda : Lambda) (views : List View) (w : Exp) : Fresh Stmt := do
  let (start, size, nest) ← launch.coverChunks w
  let whole : Collective := ⟨launch, lambda, views, .shared (.int 0)⟩
  let chunk : Collective := ⟨launch, lambda, views, .shared start⟩
  let carries := (start.gt (.int 0)).both (launch.ltid.equals (.int 0))
  let carryIn ← whole.combine { element := start } { element := .int 0 } { element := start } none false
  let reduction ← chunk.reduce size
  let carryOut ← whole.copy { element := .int 0 } { element := start }
  return nest.wrap <| .block [
    .comment "possibly incorporate carry" (.when carries carryIn),
    .barrier .shared,
    reduction,
    .barrier .shared,
    .when carries carryOut,
    .barrier .shared]

end SegKernel.Collective
