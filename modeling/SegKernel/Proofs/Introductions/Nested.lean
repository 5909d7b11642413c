import SegKernel.Proofs.Introductions.Bodies

/-! What the code of results, of buckets and of nested operations declares. -/

namespace SegKernel
open Tally Lowering
variable {t : Tally} {setting : Setting}

theorem Tally.of_moveElement (source dest : ArrayInfo) (v : Ident) (i j : Exp) :
    t.of (source.moveElement dest v i j) = t.weight v := by
  simp [ArrayInfo.moveElement]

/-! ### Results -/

namespace BodyScope
variable (scope : BodyScope)

theorem store_costs (dest : ArrayInfo) (indices : List Exp) (value : Operand) :
    Costs t setting (scope.store dest indices value) 0 t.of := by
  refine Silent.check.bind fun _ => ?_
  split
  · refine (Costs.lift (.fresh (by decide))).bind fun j => (Costs.lift (.fresh (by decide))).bind fun v => .pure ?_
    rw [of_loop, of_moveElement]
    omega
  · exact .pure (Nat.le_of_eq of_write)

theorem scatter_costs (name : Ident) (dest : ArrayInfo) (extents : List Exp) (writes : List (List Operand × Operand)) :
    Costs t setting (scope.scatter name dest extents writes) 0 t.of := by
  refine (Costs.mapM (c := t.of) fun w _ => Silent.check.bind fun _ => .pure ?_).bind fun code => .pure ?_
  · exact Nat.le_of_eq (of_when_of_zero of_write)
  · rw [of_block, Nat.zero_add]
    exact Nat.le_refl _

theorem concatenate_costs (flat : Ident) (dest : ArrayInfo) (split : Split) (perThread : Exp) (array : Ident) :
    Costs t setting (scope.concatenate flat dest split perThread array) 0 t.of := by
  refine (scope.array_silent array).bind fun source => (Costs.lift (.fresh (by decide))).bind fun j => ?_
  refine (Costs.lift (.fresh (by decide))).bind fun v => .pure ?_
  rw [of_loop]
  grw [of_when_le, of_moveElement]
  omega

theorem threadResult_costs (space : IterationSpace) (name : Ident) (result : BodyResult) :
    Costs t setting (scope.threadResult space name result) 0 t.of := by
  refine (scope.array_silent name).bind fun dest => ?_
  cases result with
  | returns value => exact store_costs scope _ _ _
  | write shape writes => exact Silent.markScatter.bind fun _ => scatter_costs scope _ _ _ _
  | concat split perThread array => exact concatenate_costs scope _ _ _ _ _
  | tile => exact .limitation

theorem threadResults_costs (space : IterationSpace) (results : BoundResults) :
    Costs t setting (scope.threadResults space results) 0 t.of := by
  refine (Costs.mapM (c := t.of) fun r _ => threadResult_costs scope space r.1.name r.2).bind fun code => .pure ?_
  rw [of_block, Nat.zero_add]
  exact Nat.le_refl _

theorem assembleTile_costs (indices : List Exp) (dest : ArrayInfo) (tiles : List (Operand × Operand)) (array : Ident) :
    Costs t setting (scope.assembleTile indices dest tiles array) 0 t.of := by
  refine Silent.check.bind fun _ => (scope.array_silent array).bind fun source => ?_
  refine (Costs.lift (.freshFor (by decide) _)).bind fun ids => (Costs.lift (.fresh (by decide))).bind fun flat => ?_
  refine (Costs.lift (.fresh (by decide))).bind fun v => ?_
  refine Costs.bindWith (t.weight v) (.lift (Launch.coverSpace_costs _ _ _)) (fun nest => .pure ?_) ?_
  · grw [of_wrap_le, of_when_le, of_moveElement]
    omega
  · rw [sum_space_names, IterationSpace.indices, List.map_map]
    change t.weight v + (t.weight flat + t.sum ((ids.zip tiles).map (·.1))) ≤ _
    grw [sum_map_fst_zip_le]
    omega

theorem storeOfGroup_costs (indices : List Exp) (dest : ArrayInfo) (value : Operand) :
    Costs t setting (scope.storeOfGroup indices dest value) 0 t.of := by
  unfold storeOfGroup
  split
  · refine Silent.check.bind fun _ => (Costs.lift (Launch.coverNumbers_costs _ _)).bind fun r => ?_
    refine (Costs.lift (.fresh (by decide))).bind fun v => .pure ?_
    grw [of_wrap_le, of_moveElement]
    omega
  · refine (store_costs scope _ _ _).bind fun code => .pure ?_
    grw [of_when_le]
    omega

theorem groupResult_costs (indices : List Exp) (name : Ident) (result : BodyResult) :
    Costs t setting (scope.groupResult indices name result) 0 t.of := by
  refine (scope.array_silent name).bind fun dest => ?_
  cases result with
  | returns value => exact storeOfGroup_costs scope _ _ _
  | tile tiles array => exact assembleTile_costs scope _ _ _ _
  | write => exact .limitation
  | concat => exact .limitation

theorem groupResults_costs (indices : List Exp) (results : BoundResults) :
    Costs t setting (scope.groupResults indices results) 0 t.of := by
  refine (Costs.mapM (c := t.of) fun r _ => groupResult_costs scope indices r.1.name r.2).bind fun code => .pure ?_
  rw [of_block, Nat.zero_add]
  exact Nat.le_refl _

end BodyScope

/-! ### Buckets -/

theorem BodyResult.plain_silent (result : BodyResult) (cause : Defect) (span : Option Span) :
    Silent t setting (result.plain cause span) := by
  unfold plain
  split
  · exact .pure
  · exact Costs.defect

namespace Histogram

theorem bucketCode_costs (h : Histogram) (update : AtomicUpdate) (locking : Option Locking) (dests : List View)
    (space : IterationSpace) (span : Option Span) (bin : Exp) (values : List Exp) :
    Costs t setting (h.bucketCode update locking dests space span bin values) 0 t.of := by
  have coordinates : Silent t setting (h.coordinates space bin span) :=
    Silent.check.bind fun _ => Silent.inRange.bind fun _ => Silent.pure
  refine coordinates.bind fun coords =>
    (Costs.liftExcept (AtomicUpdate.code_costs _ _ _ _ _ _)).bind fun code => .pure ?_
  grw [of_when_le]
  omega

theorem updateCode_costs (locking : Option Locking) (space : IterationSpace) (span : Option Span)
    {plain : BodyResult → Lowering Exp} (hplain : ∀ r, Silent t setting (plain r)) :
    ∀ (hs : List ((Histogram × AtomicUpdate) × List View)) (bins values : List BodyResult),
      Costs t setting (updateCode locking space span plain hs bins values) 0 t.ofAll
  | [], _, _ => by
    unfold updateCode
    exact .pure (Nat.le_refl _)
  | ((h, update), dests) :: hs, [], _ => by
    unfold updateCode
    exact .pure (Nat.le_refl _)
  | ((h, update), dests) :: hs, bin :: bins, values => by
    unfold updateCode
    refine (hplain bin).bind fun bin' => Silent.inRange.bind fun _ =>
      (Silent.mapM fun v _ => hplain v).bind fun own => ?_
    refine (bucketCode_costs h update locking dests space span _ _).bind fun code => ?_
    refine (updateCode_costs locking space span hplain hs bins _).bind fun rest => .pure ?_
    rw [ofAll_cons]
    omega

theorem mappedResults_silent (hs : List Histogram) (pattern : List PatElem) (results : List BodyResult) :
    Silent t setting (mappedResults hs pattern results) :=
  Silent.inRange.bind fun _ => Silent.inRange.bind fun _ => Silent.pure

end Histogram

/-! ### Nested operations -/

theorem Tally.of_declarePattern {pattern : List PatElem} (h : t.Ignores (pattern.map (·.name))) :
    t.of (declarePattern pattern) = 0 := by
  refine Nat.le_zero.mp (Nat.le_trans ?_ (Nat.le_of_eq h.sum))
  rw [declarePattern, of_block]
  refine ofAll_map_le (·.name) pattern fun p _ => ?_
  split
  · exact Nat.le_of_eq of_declare
  · exact Nat.le_of_eq of_declareArray

namespace Nested
namespace Context
variable (c : Context)

theorem output_silent (p : PatElem) : Silent t setting (c.output p) := Silent.require

theorem plain_silent (result : BodyResult) : Silent t setting (c.plain result) := result.plain_silent _ _

theorem mappedStores_costs (inner : BodyScope) (results : BoundResults) :
    Costs t setting (c.mappedStores inner results) 0 t.of := by
  refine (Costs.mapM (c := t.of) fun r _ => ?_).bind fun code => .pure ?_
  · obtain ⟨p, result⟩ := r
    cases result with
    | returns value => exact Silent.require.bind fun dest => inner.store_costs _ _ _
    | _ => exact .limitation
  · rw [of_block, Nat.zero_add]
    exact Nat.le_refl _

theorem cover_costs (h : t.Ignores c.op.allNames) (code : List Stmt) :
    Costs t setting (c.cover code) (t.ofAll code) t.of := by
  refine Costs.bindWith (t.ofAll code) (.lift (Launch.coverSpace_costs _ _ _)) (fun nest => .pure ?_) ?_
  · grw [of_wrap_le]
    rw [of_block]
    omega
  · rw [h.space.sum]
    omega

/-! ### Operators -/

theorem scratch_silent (op : Combiner) (regions : Int64) : Silent t setting (c.scratch op regions) :=
  (Silent.mapM fun _ _ => Silent.allocate (by decide)).bind fun _ => Silent.pure

theorem storeContribution_costs (inner : BodyScope) (layout : Layout) (view : View) (result : BodyResult) :
    Costs t setting (c.storeContribution inner layout view result) 0 t.of := by
  refine (plain_silent c result).bind fun value => ?_
  dsimp only
  split
  · exact .pure (Nat.le_of_eq of_write)
  · refine Silent.require.bind fun source => (Costs.lift (.fresh (by decide))).bind fun j => ?_
    refine (Costs.lift (.fresh (by decide))).bind fun v => .pure ?_
    simp only [of_loop, of_block, ofAll_cons, ofAll_nil, of_declare, of_read, of_write]
    omega

theorem contributions_costs (inner : BodyScope) (layout : Layout) (views : List View) (results : BoundResults) :
    Costs t setting ((views.zip (results.map (·.2))).mapM fun (view, result) =>
      c.storeContribution inner layout view result) 0 t.ofAll :=
  Costs.mapM fun r _ => storeContribution_costs c inner layout r.1 r.2

theorem scanAll_costs (lambda : Lambda) (views : List View) (layout : Layout) :
    Fresh.Costs t (c.scanAll lambda views layout) 0 t.of := by
  unfold scanAll
  dsimp only
  split
  · exact Collective.scanChunks_costs _ _ _ _ _
  · exact Collective.scan_costs _ _ _

/-- The count of what the code of a part declares. -/
def Part.count (t : Tally) (part : Part) : Nat := t.ofAll part.declares + t.ofAll part.stores + t.ofAll part.steps

theorem parts_costs {make : Combiner → BoundResults → Lowering Part}
    (hmake : ∀ op results, Costs t setting (make op results) 0 (Part.count t)) :
    ∀ (ops : List Combiner) (results : BoundResults),
      Costs t setting (parts make ops results) 0 fun r => (r.1.map (Part.count t)).sum
  | [], _ => .pure (Nat.le_refl _)
  | op :: ops, results => by
    refine Silent.inRange.bind fun _ => (hmake op _).bind fun part => (parts_costs hmake ops _).bind fun r => .pure ?_
    rw [List.map_cons, List.sum_cons]
    omega

theorem sum_count (parts : List Part) : (parts.map (Part.count t)).sum =
    t.ofAll (parts.flatMap (·.declares)) + t.ofAll (parts.flatMap (·.stores)) + t.ofAll (parts.flatMap (·.steps)) := by
  induction parts with
  | nil => rfl
  | cons part parts ih =>
    simp only [List.map_cons, List.sum_cons, List.flatMap_cons, ofAll_append, ih, Part.count]
    omega

theorem withOperators_costs (h : t.Ignores c.op.allNames) (pattern : List PatElem) (ops : List Combiner)
    {make : BodyScope → Combiner → BoundResults → Lowering Part}
    (hmake : ∀ inner op results, Costs t setting (make inner op results) 0 (Part.count t)) :
    Costs t setting (c.withOperators pattern ops make) 0 t.of := by
  have checked : Silent t setting (c.checkComponents pattern ops) := by
    unfold checkComponents
    split
    · exact Costs.defect
    · exact Silent.check
  refine checked.bind fun _ => (BodyStm.threadBody_costs _ h).bind fun body => ?_
  refine (parts_costs (hmake body.2) ops _).bind fun parts => (mappedStores_costs c body.2 _).bind fun mapped => ?_
  refine Costs.bindWith (t.ofAll (parts.1.flatMap (·.declares)) + t.ofAll (parts.1.flatMap (·.steps)))
    (cover_costs c h _) (fun visit => .pure ?_) ?_
  · simp only [of_block, ofAll_cons, ofAll_nil, of_barrier]
    omega
  · simp only [ofAll_cons, ofAll_nil, of_block, sum_count]
    omega

/-! ### Scans -/

theorem copyRows_costs (views : List View) (layout : Layout) (lanes : Exp) (outputs : List PatElem) :
    Costs t setting (c.copyRows views layout lanes outputs) 0 t.of := by
  refine (Costs.lift (.fresh (by decide))).bind fun j => ?_
  refine (Costs.mapM (c := t.ofAll) fun r _ => ?_).bind fun code => .pure ?_
  · refine (output_silent c r.2).bind fun dest => (Costs.lift (.fresh (by decide))).bind fun v => .pure ?_
    simp only [ofAll_cons, ofAll_nil, of_declare, of_read, of_write]
    omega
  · grw [of_when_le]
    rw [of_loop, of_block, ofAll_flatten]
    omega

theorem scanPart_costs (inner : BodyScope) (op : Combiner) (results : BoundResults) :
    Costs t setting (c.scanPart inner op results) 0 (Part.count t) := by
  unfold scanPart
  dsimp only
  split
  · refine (Silent.mapM fun p _ => output_silent c p).bind fun dests => ?_
    refine (contributions_costs c inner _ _ results).bind fun stores => ?_
    refine (Costs.lift (scanAll_costs c _ _ _)).bind fun scan => .pure ?_
    simp only [Part.count, ofAll_cons, ofAll_nil]
    omega
  · split
    · exact .limitation
    · refine (scratch_silent c op 3).bind fun r => (contributions_costs c inner _ _ results).bind fun stores => ?_
      refine (Costs.lift (scanAll_costs c _ _ _)).bind fun scan => (copyRows_costs c _ _ _ _).bind fun copy => .pure ?_
      simp only [Part.count, ofAll_cons, ofAll_nil]
      omega

/-! ### Reductions -/

theorem readTotals_costs (op : Combiner) (views : List View) (layout : Layout) (outputs : List PatElem) (count : Exp)
    (position : Exp → Exp) (nonempty : Exp) :
    Costs t setting (c.readTotals op views layout outputs count position nonempty) 0 t.of := by
  unfold readTotals
  dsimp only
  split
  · refine .pure (Nat.le_of_eq ?_)
    rw [of_block, ofAll_map_eq_zero fun r => by rw [of_branch, of_read, of_set]]
  · refine (Costs.lift (Launch.coverNumbers_costs _ _)).bind fun r => ?_
    refine (Costs.mapM (c := t.ofAll) fun r _ => ?_).bind fun code => .pure ?_
    · refine (output_silent c r.1.2).bind fun dest => (Costs.lift (.fresh (by decide))).bind fun v => .pure ?_
      simp only [ofAll_cons, ofAll_nil, of_declare, of_branch, of_read, of_set, of_write]
      omega
    · grw [of_wrap_le]
      rw [of_block, ofAll_flatten]
      omega

theorem reduceWhole_costs (op : Combiner) (views : List View) (layout : Layout) (outputs : List PatElem) :
    Costs t setting (c.reduceWhole op views layout outputs) 0 t.ofAll := by
  have rest : ∀ reduction, Costs t setting (do
      let totals ← c.readTotals op views layout outputs (.int 1) (fun _ => .int 0) (c.size.gt (.int 0))
      return [reduction, .barrier layout.fence, totals]) (0 + t.of reduction) t.ofAll := by
    refine fun reduction => (readTotals_costs c _ _ _ _ _ _ _).bind fun totals => .pure ?_
    simp only [ofAll_cons, ofAll_nil, of_barrier]
    omega
  unfold reduceWhole
  dsimp only
  split
  · exact (Costs.lift (Collective.reduceChunks_costs _ _ _ _)).bind rest
  · exact (Costs.lift (Collective.reduce_costs _ _)).bind rest

theorem reduceSegments_costs (segment : Exp) (op : Combiner) (views : List View) (layout : Layout)
    (outputs : List PatElem) : Costs t setting (c.reduceSegments segment op views layout outputs) 0 t.ofAll := by
  refine (Costs.lift (scanAll_costs c _ _ _)).bind fun scan => Silent.inRange.bind fun _ => ?_
  refine (readTotals_costs c _ _ _ _ _ _ _).bind fun totals => .pure ?_
  simp only [ofAll_cons, ofAll_nil]
  omega

/-- The part of a reduction whose elements lie in the given arrays. -/
theorem reducePart_costs_of_views (inner : BodyScope) (op : Combiner) (results : BoundResults) (views : List View)
    (layout : Layout) (declares : List Stmt) :
    Costs t setting (do
      let stores ← (views.zip (results.map (·.2))).mapM fun (view, result) =>
        c.storeContribution inner layout view result
      let steps ← match c.segmentSize? with
        | none => c.reduceWhole op views layout (results.map (·.1))
        | some segment => c.reduceSegments segment op views layout (results.map (·.1))
      return ({ declares, stores, steps, fence := layout.fence } : Part)) (t.ofAll declares) (Part.count t) := by
  refine (contributions_costs c inner _ _ results).bind fun stores => ?_
  have rest : ∀ steps, Costs t setting (pure ({ declares, stores, steps, fence := layout.fence } : Part))
      (t.ofAll declares + t.ofAll stores + t.ofAll steps) (Part.count t) := fun steps => .pure (Nat.le_refl _)
  split
  · exact (reduceWhole_costs c _ _ _ _).bind rest
  · exact (reduceSegments_costs c _ _ _ _ _).bind rest

theorem reducePart_costs (inner : BodyScope) (op : Combiner) (results : BoundResults) :
    Costs t setting (c.reducePart inner op results) 0 (Part.count t) := by
  unfold reducePart
  dsimp only
  split
  · refine (Costs.mapM (c := fun v : View => t.weight v.array) fun type _ => ?_).bind fun views => ?_
    · exact (Costs.lift (.fresh (by decide))).bind fun x => .pure (Nat.le_of_eq (Nat.zero_add _).symm)
    · refine (reducePart_costs_of_views c inner op results views _ _).mono ?_
      rw [Nat.zero_add]
      refine Nat.le_trans (ofAll_map_le (·.array) views fun v _ => Nat.le_of_eq of_declareArray) (Nat.le_of_eq ?_)
      rw [Tally.sum, List.map_map]
      rfl
  · split
    · exact .limitation
    · refine (scratch_silent c op _).bind fun r => ?_
      exact reducePart_costs_of_views c inner op results r.1 r.2 []

/-! ### Histograms -/

theorem seedOne_costs (p : PatElem) (initial : Ident) : Costs t setting (c.seedOne p initial) 0 fun r => t.of r.1 := by
  refine (output_silent c p).bind fun dest => (c.scope.array?_silent initial).bind fun _ =>
    Silent.require.bind fun source => ?_
  refine (Costs.lift (Launch.coverNumbers_costs _ _)).bind fun r =>
    (Costs.lift (.fresh (by decide))).bind fun v => .pure ?_
  grw [of_wrap_le, of_moveElement]
  omega

theorem seedAll_costs : ∀ (hs : List Histogram) (outputs : List PatElem),
    Costs t setting (c.seedAll hs outputs) 0 fun r => t.ofAll r.1
  | [], _ => .pure (Nat.le_refl _)
  | h :: hs, outputs => by
    refine Silent.check.bind fun _ => Silent.inRange.bind fun _ => ?_
    refine (Costs.mapM (c := fun r : Stmt × View => t.of r.1) fun r _ => seedOne_costs c r.1 r.2).bind fun seeded => ?_
    refine (seedAll_costs hs _).bind fun r => .pure ?_
    rw [ofAll_append, ofAll, List.map_map]
    exact Nat.le_of_eq (by rw [Nat.zero_add]; rfl)

theorem sharedLocks_costs : Costs t setting c.sharedLocks 0 fun r => t.ofAll r.2 := by
  refine (Costs.lift (.fresh (by decide))).bind fun locks =>
    (Costs.lift (Launch.coverNumbers_costs _ _)).bind fun r => .pure ?_
  simp only [ofAll_cons, ofAll_nil, of_declareArray]
  grw [of_wrap_le, of_write]
  omega

theorem updateBuckets_costs (h : t.Ignores c.op.allNames) (pattern : List PatElem) (hs : List Histogram)
    (locking : Option Locking) (updates : List AtomicUpdate) (dests : List (List View)) :
    Costs t setting (c.updateBuckets pattern hs locking updates dests) 0 t.of := by
  have plain : ∀ r : BodyResult, Silent t setting (do return (← c.plain r).toExp : Lowering Exp) := fun r =>
    (plain_silent c r).bind fun _ => Silent.pure
  refine (BodyStm.threadBody_costs _ h).bind fun body => Silent.inRange.bind fun _ => ?_
  refine (Histogram.updateCode_costs locking _ _ plain _ _ _).bind fun contributions => ?_
  refine (Histogram.mappedResults_silent hs pattern _).bind fun results => ?_
  refine (mappedStores_costs c body.2 _).bind fun mapped => (cover_costs c h _).mono ?_
  simp only [ofAll_append, ofAll_cons, ofAll_nil]
  omega

theorem histogramCode_costs (h : t.Ignores c.op.allNames) (pattern : List PatElem) (hs : List Histogram) :
    Costs t setting (c.histogramCode pattern hs) 0 t.of := by
  refine Silent.check.bind fun _ => (seedAll_costs c hs pattern).bind fun seed => Silent.read.bind fun s => ?_
  have rest : ∀ (locking : Option Locking) (freeLocks : List Stmt) (updates : List AtomicUpdate),
      Costs t setting (do
        let visit ← c.updateBuckets pattern hs locking updates seed.2
        return .block (seed.1 ++ freeLocks ++ [.barrier .shared, visit])) (0 + t.ofAll seed.1 + t.ofAll freeLocks)
          t.of := by
    refine fun locking freeLocks updates => (updateBuckets_costs c h _ _ _ _ _).bind fun visit => .pure ?_
    simp only [of_block, ofAll_append, ofAll_cons, ofAll_nil, of_barrier]
    omega
  dsimp only
  split
  · exact (sharedLocks_costs c).bind fun r => rest (some r.1) r.2 _
  · exact rest none [] _

/-! ### The four kinds -/

theorem mapCode_costs (h : t.Ignores c.op.allNames) (pattern : List PatElem) :
    Costs t setting (c.mapCode pattern) 0 t.of := by
  refine (BodyStm.threadBody_costs _ h).bind fun body => (mappedStores_costs c body.2 _).bind fun stores => ?_
  refine (cover_costs c h _).mono ?_
  simp only [ofAll_cons, ofAll_nil]
  omega

end Context

/-- All that the code of a nested operation declares has new names, apart from what the module binds. -/
theorem code_costs : BodyStm.CostsNothing t setting code := by
  intro scope pattern op hpattern h
  refine Silent.check.bind fun _ => ?_
  have rest : ∀ body, Costs t setting
      (pure (Stmt.comment op.kind.name (.block [declarePattern pattern, body, .barrier .shared]),
        scope.addArrays (patternArrays pattern))) (0 + t.of body) fun r => t.of r.1 := by
    refine fun body => .pure ?_
    simp only [of_comment, of_block, ofAll_cons, ofAll_nil, of_barrier, of_declarePattern hpattern]
    omega
  dsimp only
  split
  · exact (Context.mapCode_costs _ h pattern).bind rest
  · exact (Context.withOperators_costs _ h pattern _ fun inner op' _ => Context.scanPart_costs _ inner op' _).bind rest
  · exact (Context.withOperators_costs _ h pattern _ fun inner op' _ => Context.reducePart_costs _ inner op' _).bind
      rest
  · exact (Context.histogramCode_costs _ h pattern _).bind rest

end Nested

/-- The code of a body that the threads of a group run together. -/
theorem BodyStm.groupBody_costs (scope : BodyScope) {op : SegOp} (h : t.Ignores op.allNames) :
    Costs t setting (groupBody scope op.stms) 0 fun r => t.of r.1 := by
  refine (codeAll_costs Nested.code_costs scope h.binds h.inner).bind fun r => .pure ?_
  rw [of_block]
  omega

end SegKernel
