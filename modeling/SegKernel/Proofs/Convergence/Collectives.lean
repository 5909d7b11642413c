import SegKernel.Collective.Reduction
import SegKernel.Collective.Scan
import SegKernel.Proofs.Convergence.Constructors
import SegKernel.Proofs.Names.Scope

/-! Collectives keep the group together. The variables of their loops are uniform: all threads count
    the same steps over the same distances. What a step does to elements is quiet. -/

namespace SegKernel

/-- `U` has the new names of uniform stems, and none of those that each thread has for itself, as far
    as they are taken from number `n` on. -/
structure NewNames (U : Common) (n : Nat) : Prop where
  uniform : ∀ stem ∈ uniformStems, ∀ k, n ≤ k → U (numbered stem k)
  own : ∀ stem ∈ ownStems, ∀ k, n ≤ k → ¬U (numbered stem k)

namespace NewNames
open Fresh
variable {U : Common} {n : Nat}

theorem fresh_uniform (h : NewNames U n) {stem : String} (hs : stem ∈ uniformStems) : From n (fresh stem) U.scalar :=
  (From.fresh stem).imp fun _ ⟨k, hk, e⟩ => e ▸ h.uniform stem hs k hk

theorem fresh_own (h : NewNames U n) {stem : String} (hs : stem ∈ ownStems) : From n (fresh stem) (¬U ·) :=
  (From.fresh stem).imp fun _ ⟨k, hk, e⟩ => e ▸ h.own stem hs k hk

theorem freshFor_own (h : NewNames U n) {stem : String} (hs : stem ∈ ownStems) {α : Type} (as : List α) :
    From n (freshFor stem as) fun names => ∀ x ∈ names, ¬U x :=
  (From.freshFor stem as).imp fun _ hall x hx => by
    obtain ⟨k, hk, rfl⟩ := hall x hx
    exact h.own stem hs k hk

end NewNames

/-- What a launch knows of the whole group is uniform. -/
structure Launch.Fits (U : Common) (l : Launch) : Prop where
  groupId : U l.groupId
  wave : U l.waveWidth
  numGroups : l.numGroups.Over U
  groupSize : l.groupSize.Over U
  chunkCounts : ∀ p ∈ l.chunkCounts, p.2.Over U

namespace Collective
open Fresh Exp
variable {U : Common} {n : Nat} {c : Collective}

theorem eachLane_quiet (N : NewNames U n) {layout : Layout} {body : Exp → Fresh Stmt}
    (h : ∀ lane, From n (body lane) (Quiet U)) : From n (layout.eachLane body) (Quiet U) := by
  unfold Layout.eachLane
  split
  · exact h _
  · refine (N.fresh_own (by decide)).bind fun j hj => ?_
    exact (h _).bind fun code hcode => .pure (.loop hj hcode)

theorem load_quiet {v : View} {dest : Ident} {type : ScalarType} {index : Exp} (h : ¬U dest) :
    ∀ s ∈ v.load dest type index, Quiet U s := by
  simpa [View.load] using ⟨.declare h, .read h⟩

/-- Combining elements is quiet, if they lie in memory that threads share. -/
theorem combine_quiet (N : NewNames U n) (hviews : ∀ v ∈ c.views, v.space ≠ .thread) (dest left right : Cell)
    (keepRight : Option Exp) (volatile : Bool) : From n (c.combine dest left right keepRight volatile) (Quiet U) := by
  refine eachLane_quiet N fun lane => ?_
  refine (From.mapM (Q := fun loads => ∀ s ∈ loads.2.2, Quiet U s) ?_).bind fun loads hloads => .pure (.block ?_)
  · rintro ⟨view, param⟩ -
    refine (N.fresh_own (by decide)).bind fun x hx => ?_
    refine (N.fresh_own (by decide)).bind fun y hy => .pure fun s hs => ?_
    rcases List.mem_append.mp hs with hs | hs
    · exact load_quiet hx s hs
    · exact load_quiet hy s hs
  · intro s hs
    rcases List.mem_append.mp hs with hs | hs
    · obtain ⟨l, hl, hs⟩ := List.mem_flatMap.mp hs
      exact hloads l hl s hs
    · obtain ⟨⟨⟨view, result⟩, y⟩, hmem, rfl⟩ := List.mem_map.mp hs
      have hview := (List.of_mem_zip (List.of_mem_zip hmem).1).1
      exact .write fun hspace => absurd hspace (hviews view hview)

theorem copy_quiet (N : NewNames U n) (hviews : ∀ v ∈ c.views, v.space ≠ .thread) (dest source : Cell) :
    From n (c.copy dest source) (Quiet U) := by
  refine eachLane_quiet N fun lane => ?_
  refine (From.mapM (Q := fun code => ∀ s ∈ code, Quiet U s) ?_).bind fun code hcode => .pure (.block ?_)
  · rintro ⟨view, param⟩ hmem
    refine (N.fresh_own (by decide)).bind fun v hv => .pure fun s hs => ?_
    rcases List.mem_append.mp hs with hs | hs
    · exact load_quiet hv s hs
    · obtain rfl := List.mem_singleton.mp hs
      exact .write fun hspace => absurd hspace (hviews view (List.of_mem_zip hmem).1)
  · intro s hs
    obtain ⟨l, hl, hs⟩ := List.mem_flatten.mp hs
    exact hcode l hl s hs

/-! ### Reduction -/

theorem reduce_uniform (N : NewNames U n) (L : c.launch.Fits U) (hviews : ∀ v ∈ c.views, v.space ≠ .thread) (w : Exp) :
    From n (c.reduce w) (Uniform U) := by
  refine (N.fresh_uniform (by decide)).bind fun wave hwave => ?_
  refine (N.fresh_own (by decide)).bind fun waveId hwaveId => ?_
  refine (N.fresh_own (by decide)).bind fun inWaveId hinWaveId => ?_
  refine (N.fresh_uniform (by decide)).bind fun numWaves hnumWaves => ?_
  refine (N.fresh_uniform (by decide)).bind fun offset hoffset => ?_
  refine (N.fresh_uniform (by decide)).bind fun skipWaves hskipWaves => ?_
  refine (combine_quiet N hviews _ _ _ _ _).bind fun inWaveStep hin => ?_
  refine (combine_quiet N hviews _ _ _ _ _).bind fun crossWaveStep hcross => ?_
  refine .pure (.comment (.block ?_))
  have overWave := over_var.mpr hwave
  have overOffset := over_var.mpr hoffset
  have overSkip := over_var.mpr hskipWaves
  -- The loops go on for as long as a variable has not passed another, and both are uniform.
  have inWave : Uniform U (.repeatWhile ((Exp.var offset).lt (.var wave)) (.block [
      .when (((c.launch.ltid + .var offset).lt w).both (isFirstOfPair (.var inWaveId) (.var offset))) inWaveStep,
      .set offset (.var offset * .int 2)])) := by
    refine .repeatWhile (over_test overOffset overWave) (.block ?_)
    simp only [List.forall_mem_cons, List.not_mem_nil, false_imp_iff, implies_true, and_true]
    exact ⟨.quiet (.when hin), .set fun _ => over_mul overOffset (over_int 2)⟩
  have crossWave : Uniform U (.repeatWhile ((Exp.var skipWaves).lt (.var numWaves)) (.block [
      .barrier c.layout.fence,
      .set offset (.var skipWaves * .var wave),
      .when ((((c.launch.ltid + .var offset).lt w).both ((Exp.var inWaveId).equals (.int 0))).both
        (isFirstOfPair (.var waveId) (.var skipWaves))) crossWaveStep,
      .set skipWaves (.var skipWaves * .int 2)])) := by
    refine .repeatWhile (over_test overSkip (over_var.mpr hnumWaves)) (.block ?_)
    simp only [List.forall_mem_cons, List.not_mem_nil, false_imp_iff, implies_true, and_true]
    exact ⟨.barrier, .set fun _ => over_mul overSkip overWave, .quiet (.when hcross),
      .set fun _ => over_mul overSkip (over_int 2)⟩
  simp only [List.forall_mem_cons, List.not_mem_nil, false_imp_iff, implies_true, and_true]
  exact ⟨.declareInit fun _ => over_apply (over_var.mpr L.wave) (over_int 1),
    .quiet (.declareInit hwaveId), .quiet (.declareInit hinWaveId),
    .declareInit fun _ => over_divUp L.groupSize overWave,
    .declareInit fun _ => over_int 1, .declareInit fun _ => over_int 1, .comment inWave, .comment crossWave⟩

/-- The parts of a nest over chunks, of which all threads visit the same. -/
structure ChunkNest (U : Common) (start size : Exp) (nest : Nest) : Prop where
  start : start.Over U
  size : size.Over U
  wrap : ∀ body, Uniform U body → Uniform U (nest.wrap body)

theorem coverChunks_uniform (N : NewNames U n) {l : Launch} (L : l.Fits U) {w : Exp} (hw : w.Over U) :
    From n (l.coverChunks w) fun (start, size, nest) => ChunkNest U start size nest := by
  refine (N.fresh_uniform (by decide)).bind fun chunks hchunks => ?_
  refine (N.fresh_uniform (by decide)).bind fun chunk hchunk => ?_
  refine (N.fresh_uniform (by decide)).bind fun start hstart => ?_
  refine (N.fresh_uniform (by decide)).bind fun size hsize => .pure ?_
  refine ⟨over_var.mpr hstart, over_var.mpr hsize, fun body hbody => .wrap ?_ ?_ ?_ ?_ ?_⟩
  · simpa using .declareInit fun _ => over_divUp hw L.groupSize
  · rintro _ _ ⟨⟩
    exact over_var.mpr hchunks
  · have hs := over_var.mpr hstart
    simp only [List.forall_mem_cons, List.not_mem_nil, false_imp_iff, implies_true, and_true]
    exact ⟨.declareInit fun _ => over_mul (over_var.mpr hchunk) L.groupSize,
      .declareInit fun _ => over_sub (over_apply hw (over_add hs L.groupSize)) hs⟩
  · simp
  · exact .when (over_const _) hbody

theorem reduceChunks_uniform (N : NewNames U n) {l : Launch} (L : l.Fits U) (lambda : Lambda) {views : List View}
    (hviews : ∀ v ∈ views, v.space ≠ .thread) {w : Exp} (hw : w.Over U) :
    From n (reduceChunks l lambda views w) (Uniform U) := by
  refine (coverChunks_uniform N L hw).bind fun (start, size, nest) hnest => ?_
  refine (combine_quiet N (c := ⟨l, lambda, views, _⟩) hviews _ _ _ _ _).bind fun carryIn hcarryIn => ?_
  refine (reduce_uniform N (c := ⟨l, lambda, views, _⟩) L hviews _).bind fun reduction hreduction => ?_
  refine (copy_quiet N (c := ⟨l, lambda, views, _⟩) hviews _ _).bind fun carryOut hcarryOut => ?_
  refine .pure (hnest.wrap _ (.block ?_))
  simp only [List.forall_mem_cons, List.not_mem_nil, false_imp_iff, implies_true, and_true]
  exact ⟨.comment (.quiet (.when hcarryIn)), .barrier, hreduction, .barrier, .quiet (.when hcarryOut), .barrier⟩

/-! ### Scans -/

theorem setAll_quiet {dests sources : List Ident} (h : ∀ d ∈ dests, ¬U d) : Quiet U (setAll dests sources) := by
  refine .block fun s hs => ?_
  obtain ⟨⟨d, x⟩, hmem, rfl⟩ := List.mem_map.mp hs
  exact .set (h d (List.of_mem_zip hmem).1)

theorem declareAll_quiet {names : List Ident} {types : List ScalarType} (h : ∀ d ∈ names, ¬U d) :
    Quiet U (declareAll names types) := by
  refine .block fun s hs => ?_
  obtain ⟨⟨d, x⟩, hmem, rfl⟩ := List.mem_map.mp hs
  exact .declare (h d (List.of_mem_zip hmem).1)

theorem readAll_quiet {views : List View} {dests : List Ident} {index : Exp} (h : ∀ d ∈ dests, ¬U d) :
    Quiet U (readAll views dests index) := by
  refine .block fun s hs => ?_
  obtain ⟨⟨v, d⟩, hmem, rfl⟩ := List.mem_map.mp hs
  exact .read (h d (List.of_mem_zip hmem).2)

theorem writeAll_quiet {views : List View} {sources : List Ident} {index : Exp}
    (h : ∀ v ∈ views, v.space ≠ .thread) : Quiet U (writeAll views sources index) := by
  refine .block fun s hs => ?_
  obtain ⟨⟨v, d⟩, hmem, rfl⟩ := List.mem_map.mp hs
  exact .write fun hspace => absurd hspace (h v (List.of_mem_zip hmem).1)

theorem uncached_space {views : List View} (h : ∀ v ∈ views, v.space ≠ .thread) :
    ∀ v ∈ views.map View.uncached, v.space ≠ .thread := by
  intro v hv
  obtain ⟨v', hv', rfl⟩ := List.mem_map.mp hv
  exact h v' hv'

/-- Setting variables to the results of an operator is quiet, if the variables are. -/
theorem assign_quiet (N : NewNames U n) (l : Lambda) (xs ys : List Exp) {dests : List Ident} (h : ∀ d ∈ dests, ¬U d) :
    From n (l.assign xs ys dests) (Quiet U) := by
  unfold Lambda.assign
  dsimp only
  split
  · refine .pure (.block fun s hs => ?_)
    obtain ⟨⟨d, r⟩, hmem, rfl⟩ := List.mem_map.mp hs
    exact .set (h d (List.of_mem_zip hmem).1)
  · refine (N.freshFor_own (by decide) _).bind fun temps htemps => .pure (.block fun s hs => ?_)
    rcases List.mem_append.mp hs with hs | hs
    · obtain ⟨⟨⟨t, r⟩, type⟩, hmem, rfl⟩ := List.mem_map.mp hs
      exact .declareInit (htemps t (List.of_mem_zip (List.of_mem_zip hmem).1).1)
    · obtain ⟨⟨d, t⟩, hmem, rfl⟩ := List.mem_map.mp hs
      exact .set (h d (List.of_mem_zip hmem).1)

/-- The names of the place of a thread in the blocks are its own. -/
theorem blockIds_quiet (N : NewNames U n) (l : Launch) (w : Exp) :
    From n (BlockIds.declare l w) fun (_, code) => Quiet U code := by
  refine (N.fresh_own (by decide)).bind fun block hblock => ?_
  refine (N.fresh_own (by decide)).bind fun inBlock hinBlock => ?_
  refine (N.fresh_own (by decide)).bind fun inBounds hinBounds => .pure (.block ?_)
  simp only [List.forall_mem_cons, List.not_mem_nil, false_imp_iff, implies_true, and_true]
  exact ⟨.declareInit hblock, .declareInit hinBlock, .declareInit hinBounds⟩

theorem scanBlocks_uniform (N : NewNames U n) (L : c.launch.Fits U) (hviews : ∀ v ∈ c.views, v.space ≠ .thread)
    (test : Option SegmentTest) (base : Exp) (ids : BlockIds) (active : Exp) :
    From n (c.scanBlocks test base ids active) fun (code, xs) => Uniform U code ∧ ∀ x ∈ xs, ¬U x := by
  refine (N.freshFor_own (by decide) _).bind fun xs hxs => ?_
  refine (N.freshFor_own (by decide) _).bind fun ys hys => ?_
  refine (N.fresh_uniform (by decide)).bind fun skip hskip => ?_
  refine (N.fresh_own (by decide)).bind fun inactive hinactive => ?_
  refine (assign_quiet N _ _ _ hxs).bind fun apply happly => .pure ⟨.block ?_, hxs⟩
  have hskip' := over_var.mpr hskip
  have hviews' := uncached_space hviews
  simp only [List.forall_mem_cons, List.not_mem_nil, false_imp_iff, implies_true, and_true]
  refine ⟨.quiet (declareAll_quiet hxs), .quiet (declareAll_quiet hys), .declare, .declare,
    .quiet (.comment (.when (.block ?_))), .set fun _ => over_int 1,
    .comment (.repeatWhile (over_test hskip' (over_int _)) (.block ?_))⟩
  · simp only [List.forall_mem_cons, List.not_mem_nil, false_imp_iff, implies_true, and_true]
    exact ⟨readAll_quiet hys, .when (setAll_quiet hxs)⟩
  · have waits : Uniform U (.when (c.launch.wave.lt (.int scanBlockSize)) (.barrier .shared)) :=
      .when (over_test (over_var.mpr L.wave) (over_int _)) .barrier
    simp only [List.forall_mem_cons, List.not_mem_nil, false_imp_iff, implies_true, and_true]
    refine ⟨.quiet (.when (readAll_quiet hxs)), waits, .quiet ?_, waits, .quiet (.when (.block ?_)), waits,
      .set fun _ => over_mul hskip' (over_int 2)⟩
    · cases test with
      | none => exact .when happly
      | some test =>
        refine .block ?_
        simp only [List.forall_mem_cons, List.not_mem_nil, false_imp_iff, implies_true, and_true]
        exact ⟨.set hinactive, .when (setAll_quiet hxs), .when happly⟩
    · simp only [List.forall_mem_cons, List.not_mem_nil, false_imp_iff, implies_true, and_true]
      exact ⟨writeAll_quiet hviews', setAll_quiet hys⟩

theorem scanScalars_uniform (N : NewNames U n) (L : c.launch.Fits U) (hviews : ∀ v ∈ c.views, v.space ≠ .thread)
    (test : Option SegmentTest) (base w : Exp) : From n (c.scanScalars test base w) (Uniform U) := by
  refine (blockIds_quiet N _ _).bind fun (ids, declareIds) hids => ?_
  refine (scanBlocks_uniform N L hviews _ _ _ _).bind fun (blockScan, xs) ⟨hblockScan, hxs⟩ => ?_
  refine (scanBlocks_uniform N L hviews _ _ _ _).bind fun (carryScan, xs') ⟨hcarryScan, _⟩ => ?_
  refine (N.freshFor_own (by decide) _).bind fun own hown => ?_
  refine (N.fresh_own (by decide)).bind fun noCarryIn hnoCarryIn => ?_
  refine (assign_quiet N _ _ _ hxs).bind fun apply happly => ?_
  have hviews' := uncached_space hviews
  have writesBack : Quiet U (writeAll c.views xs (base + c.launch.ltid)) := writeAll_quiet hviews
  -- The test of segments adds a variable of its own, so what follows is shown for both forms at once.
  have tail : ∀ combineIntoX, Quiet U combineIntoX → ∀ s ∈ [
      declareIds,
      blockScan,
      .barrier .shared,
      .comment "last thread of block 'i' writes its result to offset 'i'"
        (.when (ids.isLastInBlock.both (.var ids.inBounds))
          (writeAll (c.views.map View.uncached) xs (base + .var ids.block))),
      .barrier .shared,
      .comment "scan the first block, after which offset 'i' contains carry-in for block 'i+1'" carryScan,
      .barrier .shared,
      declareAll own c.lambda.resultTypes,
      .declareInit noCarryIn .bool (ids.isFirstBlock.either (Exp.var ids.inBounds).negation),
      .comment "carry-in for every block except the first" <| .block [
        .when (Exp.var noCarryIn).negation (.block [setAll own xs,
          readAll (c.views.map View.uncached) xs (base + .var ids.block - .int 1)]),
        combineIntoX, .when (Exp.var noCarryIn).negation (writeAll c.views xs (base + c.launch.ltid))],
      .barrier .shared,
      .comment "restore correct values for first block"
        (.when (ids.isFirstBlock.both (.var ids.inBounds)) (writeAll c.views xs (base + c.launch.ltid))),
      .barrier .shared], Uniform U s := by
    intro combineIntoX hcombine
    simp only [List.forall_mem_cons, List.not_mem_nil, false_imp_iff, implies_true, and_true]
    refine ⟨.quiet hids, hblockScan, .barrier, .quiet (.comment (.when (writeAll_quiet hviews'))), .barrier,
      .comment hcarryScan, .barrier, .quiet (declareAll_quiet hown), .quiet (.declareInit hnoCarryIn),
      .quiet (.comment (.block ?_)), .barrier, .quiet (.comment (.when writesBack)), .barrier⟩
    simp only [List.forall_mem_cons, List.not_mem_nil, false_imp_iff, implies_true, and_true]
    refine ⟨.when (.block ?_), hcombine, .when writesBack⟩
    simp only [List.forall_mem_cons, List.not_mem_nil, false_imp_iff, implies_true, and_true]
    exact ⟨setAll_quiet hown, readAll_quiet hxs⟩
  cases test with
  | none => exact .pure (.block (tail _ (.when happly)))
  | some test =>
    refine (N.fresh_own (by decide)).bind fun inactive hinactive => .pure (.block (tail _ (.block ?_)))
    simp only [List.forall_mem_cons, List.not_mem_nil, false_imp_iff, implies_true, and_true]
    exact ⟨.declareInit hinactive, .when (setAll_quiet hxs), .when happly⟩

theorem scanRowBlocks_uniform (N : NewNames U n) (hviews : ∀ v ∈ c.views, v.space ≠ .thread)
    (test : Option SegmentTest) (ids : BlockIds) (active : Exp) :
    From n (c.scanRowBlocks test ids active) (Uniform U) := by
  refine (N.fresh_uniform (by decide)).bind fun skip hskip => ?_
  refine (combine_quiet N hviews _ _ _ _ _).bind fun step hstep => ?_
  refine (copy_quiet N hviews _ _).bind fun commit hcommit => .pure (.block ?_)
  have hskip' := over_var.mpr hskip
  simp only [List.forall_mem_cons, List.not_mem_nil, false_imp_iff, implies_true, and_true]
  refine ⟨.declareInit fun _ => over_int 1, .repeatWhile (over_test hskip' (over_int _)) (.block ?_)⟩
  simp only [List.forall_mem_cons, List.not_mem_nil, false_imp_iff, implies_true, and_true]
  exact ⟨.quiet (.when hstep), .barrier, .quiet (.when hcommit), .barrier,
    .set fun _ => over_mul hskip' (over_int 2)⟩

theorem scanRows_uniform (N : NewNames U n) (hviews : ∀ v ∈ c.views, v.space ≠ .thread)
    (test : Option SegmentTest) (w : Exp) : From n (c.scanRows test w) (Uniform U) := by
  refine (blockIds_quiet N _ _).bind fun (ids, declareIds) hids => ?_
  refine (scanRowBlocks_uniform N hviews _ _ _).bind fun blockScan hblockScan => ?_
  refine (copy_quiet N hviews _ _).bind fun save hsave => ?_
  refine (copy_quiet N hviews _ _).bind fun publish hpublish => ?_
  refine (copy_quiet N hviews _ _).bind fun gather hgather => ?_
  refine (scanRowBlocks_uniform N hviews _ _ _).bind fun carryScan hcarryScan => ?_
  refine (combine_quiet N hviews _ _ _ _ _).bind fun carryIn hcarryIn => ?_
  refine (copy_quiet N hviews _ _).bind fun restore hrestore => .pure (.block ?_)
  simp only [List.forall_mem_cons, List.not_mem_nil, false_imp_iff, implies_true, and_true]
  exact ⟨.quiet hids, hblockScan, .quiet (.comment (.when hsave)), .barrier, .quiet (.comment (.when hpublish)),
    .barrier, .quiet (.when hgather), .barrier, .comment hcarryScan, .quiet (.comment (.when hcarryIn)), .barrier,
    .quiet (.comment (.when hrestore)), .barrier⟩

theorem scan_uniform (N : NewNames U n) (L : c.launch.Fits U) (hviews : ∀ v ∈ c.views, v.space ≠ .thread)
    (test : Option SegmentTest) (w : Exp) : From n (c.scan test w) (Uniform U) := by
  unfold scan
  split
  · exact (scanScalars_uniform N L hviews _ _ _).bind fun code hcode => .pure (.comment hcode)
  · exact (scanRows_uniform N hviews _ _).bind fun code hcode => .pure (.comment hcode)

theorem scanChunks_uniform (N : NewNames U n) {l : Launch} (L : l.Fits U) (lambda : Lambda) {views : List View}
    (hviews : ∀ v ∈ views, v.space ≠ .thread) (test : Option SegmentTest) {w : Exp} (hw : w.Over U) :
    From n (scanChunks l lambda views test w) (Uniform U) := by
  refine (coverChunks_uniform N L hw).bind fun (start, size, nest) hnest => ?_
  refine (combine_quiet N (c := ⟨l, lambda, views, _⟩) hviews _ _ _ _ _).bind fun carryIn hcarryIn => ?_
  refine (scan_uniform N (c := ⟨l, lambda, views, _⟩) L hviews _ _).bind fun code hcode => ?_
  refine .pure (hnest.wrap _ (.block ?_))
  simp only [List.forall_mem_cons, List.not_mem_nil, false_imp_iff, implies_true, and_true]
  exact ⟨.comment (.quiet (.when hcarryIn)), .barrier, hcode⟩

end Collective
end SegKernel
