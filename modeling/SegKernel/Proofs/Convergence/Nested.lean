import SegKernel.Lowering.Nested
import SegKernel.Proofs.Convergence.Bodies

/-! Operations inside the body of a group are uniform. The threads visit the points in nests that they
    run together, do at the points what is quiet, and let collectives work on the elements. -/

namespace SegKernel.Nested
open Fresh Exp Lowering

/-- What a part adds keeps the group together. -/
structure Context.Part.Fits (U : Common) (part : Context.Part) : Prop where
  declares : ∀ s ∈ part.declares, Uniform U s
  stores : ∀ s ∈ part.stores, Quiet U s
  steps : ∀ s ∈ part.steps, Uniform U s

namespace Context

/-- The results of an operation are shared arrays, the names that it binds are no common ones, and
    those of its operands are. -/
structure Fits (U : Common) (pattern : List PatElem) (c : Context) : Prop where
  launch : c.launch.Fits U
  shapes : ∀ name a, c.scope.kernelArray? name = some a → ∀ d ∈ a.shape, d.Over U
  outputs : ∀ p ∈ pattern, ∀ a, c.scope.kernelArray? p.name = some a → a.view.space = .shared
  names : ∀ x ∈ c.op.names, ¬U x
  vars : ∀ x ∈ c.op.space.vars ++ c.op.kind.vars, U x

section
variable {U : Common} {setting : Setting} {n : Nat} {c : Context} {pattern : List PatElem}

namespace Fits

theorem space_names (F : c.Fits U pattern) : ∀ x ∈ c.op.space.names, ¬U x := fun x hx =>
  F.names x (List.mem_append_left _ hx)

theorem space_vars (F : c.Fits U pattern) : ∀ x ∈ c.op.space.vars, U x := fun x hx =>
  F.vars x (List.mem_append_left _ hx)

theorem size (F : c.Fits U pattern) : c.size.Over U := size_over F.space_vars

theorem segmentSize (F : c.Fits U pattern) {segment : Exp} (h : c.segmentSize? = some segment) : segment.Over U := by
  unfold segmentSize? at h
  split at h
  · cases h
  · exact dimExps_over F.space_vars segment (List.mem_of_getLast? h)

end Fits

theorem output_yields (F : c.Fits U pattern) {p : PatElem} (hp : p ∈ pattern) :
    Yields setting n (c.output p) fun a => a.view.space = .shared ∧ ∀ d ∈ a.shape, d.Over U :=
  Yields.require.imp fun a ha => ⟨F.outputs p hp a ha, F.shapes p.name a ha⟩

theorem body_quiet (F : c.Fits U pattern) :
    Yields setting n c.body fun (code, inner) => Quiet U code ∧
      AddsArrays (c.op.stms.flatMap BodyStm.binds) c.scope inner :=
  (threadBody_quiet fun x hx => F.names x (List.mem_append_right _ hx)).imp fun _ ⟨hcode, _, harrays⟩ =>
    ⟨hcode, harrays⟩

theorem mappedStores_quiet (N : NewNames U n) (F : c.Fits U pattern) {inner : BodyScope}
    (hinner : AddsArrays (c.op.stms.flatMap BodyStm.binds) c.scope inner) {results : BoundResults}
    (hresults : ∀ r ∈ results, r.1 ∈ pattern) : Yields setting n (c.mappedStores inner results) (Quiet U) := by
  refine (Yields.mapM (Q := Quiet U) ?_).bind fun code hcode => .pure (.block hcode)
  rintro ⟨p, result⟩ hmem
  cases result with
  | returns value =>
    refine Yields.bind (P := ArrayInfo.Quiet U) (Yields.require.imp fun a ha => ?_) fun dest hdest =>
      store_quiet N inner hdest _ _
    rcases hinner p.name a ha with h | ⟨h, e⟩
    · exact fun hspace => absurd (F.outputs p (hresults _ hmem) a h) (by simp [hspace])
    · exact fun _ => e ▸ U.not_array (F.names _ (List.mem_append_right _ h))
  | _ => exact .limitation

theorem cover_uniform (N : NewNames U n) (F : c.Fits U pattern) {code : List Stmt} (h : ∀ s ∈ code, Quiet U s) :
    Yields setting n (c.cover code) (Uniform U) :=
  (Yields.lift (coverSpace_uniform N F.launch _ F.space_names F.space_vars)).bind fun _ hnest =>
    .pure (hnest _ (.block h))

/-! ### Operators -/

theorem lanes_over {op : Combiner} (h : ∀ x ∈ op.vars, U x) : op.lanes.Over U := by
  refine over_product fun e he => ?_
  obtain ⟨o, ho, rfl⟩ := List.mem_map.mp he
  exact Operand.over_toExp fun x hx => h x (List.mem_append_right _ (List.mem_flatMap.mpr ⟨o, ho, hx⟩))

theorem neutral_over {op : Combiner} (h : ∀ x ∈ op.vars, U x) : ∀ o ∈ op.neutral, o.toExp.Over U := fun o ho =>
  Operand.over_toExp fun x hx => h x (List.mem_append_left _ (List.mem_flatMap.mpr ⟨o, ho, hx⟩))

theorem scratch_yields (op : Combiner) (regions : Int64) :
    Yields setting n (c.scratch op regions) fun (views, layout) => (∀ v ∈ views, v.space = .global) ∧
      layout.isRows = true :=
  (Yields.mapM fun _ _ => Yields.allocate (by decide)).bind fun _ hviews => .pure ⟨hviews, rfl⟩

theorem storeContribution_quiet (N : NewNames U n) (inner : BodyScope) (layout : Layout) {view : View}
    (hview : view.space ≠ .thread) (result : BodyResult) :
    Yields setting n (c.storeContribution inner layout view result) (Quiet U) := by
  refine (plain_yields _ _ _).bind fun value _ => ?_
  dsimp only
  split
  · exact .pure (.write fun h => absurd h hview)
  · refine Yields.require.bind fun source _ => ?_
    refine (Yields.lift (N.fresh_own (by decide))).bind fun j hj => ?_
    refine (Yields.lift (N.fresh_own (by decide))).bind fun v hv => .pure (.loop hj (.block ?_))
    simp only [List.forall_mem_cons, List.not_mem_nil, false_imp_iff, implies_true, and_true]
    exact ⟨.declare hv, .read hv, .write fun h => absurd h hview⟩

theorem contributions_quiet (N : NewNames U n) (inner : BodyScope) (layout : Layout) {views : List View}
    (hviews : ∀ v ∈ views, v.space ≠ .thread) (results : BoundResults) :
    Yields setting n ((views.zip (results.map (·.2))).mapM fun (view, result) =>
      c.storeContribution inner layout view result) fun stores => ∀ s ∈ stores, Quiet U s :=
  Yields.mapM fun r hr => storeContribution_quiet N inner layout (hviews r.1 (List.of_mem_zip hr).1) r.2

theorem scanAll_uniform (N : NewNames U n) (F : c.Fits U pattern) (lambda : Lambda) {views : List View}
    (hviews : ∀ v ∈ views, v.space ≠ .thread) (layout : Layout) :
    From n (c.scanAll lambda views layout) (Uniform U) := by
  unfold scanAll
  dsimp only
  split
  · exact Collective.scanChunks_uniform N F.launch lambda hviews _ F.size
  · exact Collective.scan_uniform N (c := ⟨c.launch, lambda, views, layout⟩) F.launch hviews _ _

theorem parts_fit {make : Combiner → BoundResults → Lowering Part} : ∀ {ops : List Combiner} {results : BoundResults},
    (∀ op ∈ ops, ∀ own : BoundResults, (∀ r ∈ own, r.1 ∈ pattern) → Yields setting n (make op own) (Part.Fits U)) →
    (∀ r ∈ results, r.1 ∈ pattern) →
    Yields setting n (parts make ops results) fun (parts, rest) =>
      (∀ p ∈ parts, p.Fits U) ∧ ∀ r ∈ rest, r.1 ∈ pattern
  | [], _, _, hresults => .pure ⟨by simp, hresults⟩
  | op :: ops, results, hmake, hresults => by
    refine Yields.inRange.bind fun _ _ => ?_
    refine (hmake op List.mem_cons_self _ fun r hr => hresults r (List.mem_of_mem_take hr)).bind fun part hpart => ?_
    refine (parts_fit (fun op' h' => hmake op' (List.mem_cons_of_mem op h'))
      fun r hr => hresults r (List.mem_of_mem_drop hr)).bind fun (ps, rest) ⟨hps, hrest⟩ => .pure ⟨?_, hrest⟩
    intro p hp
    rcases List.mem_cons.mp hp with rfl | hp
    · exact hpart
    · exact hps p hp

theorem zip_pattern {results : List BodyResult} : ∀ r ∈ pattern.zip results, r.1 ∈ pattern := fun _ hr =>
  (List.of_mem_zip hr).1

theorem withOperators_uniform (N : NewNames U n) (F : c.Fits U pattern) {ops : List Combiner}
    {make : BodyScope → Combiner → BoundResults → Lowering Part}
    (hmake : ∀ inner, ∀ op ∈ ops, ∀ own : BoundResults, (∀ r ∈ own, r.1 ∈ pattern) →
      Yields setting n (make inner op own) (Part.Fits U)) :
    Yields setting n (c.withOperators pattern ops make) (Uniform U) := by
  have checked : Yields setting n (c.checkComponents pattern ops) fun _ => True := by
    unfold checkComponents
    split
    · exact .defect
    · exact Yields.check.imp fun _ _ => trivial
  refine checked.bind fun _ _ => ?_
  refine (body_quiet F).bind fun (code, inner) ⟨hcode, hinner⟩ => ?_
  refine (parts_fit (hmake inner) zip_pattern).bind fun (parts, rest) ⟨hparts, hrest⟩ => ?_
  refine (mappedStores_quiet N F hinner hrest).bind fun mapped hmapped => ?_
  refine (cover_uniform N F ?_).bind fun visit hvisit => .pure (.block ?_)
  · simp only [List.forall_mem_cons, List.not_mem_nil, false_imp_iff, implies_true, and_true]
    refine ⟨hcode, .block fun s hs => ?_, hmapped⟩
    obtain ⟨p, hp, hs⟩ := List.mem_flatMap.mp hs
    exact (hparts p hp).stores s hs
  · simp only [List.forall_mem_cons, List.not_mem_nil, false_imp_iff, implies_true, and_true]
    refine ⟨.block fun s hs => ?_, hvisit, .barrier, .block fun s hs => ?_⟩
    · obtain ⟨p, hp, hs⟩ := List.mem_flatMap.mp hs
      exact (hparts p hp).declares s hs
    · obtain ⟨p, hp, hs⟩ := List.mem_flatMap.mp hs
      exact (hparts p hp).steps s hs

/-! ### Scans -/

theorem copyRows_quiet (N : NewNames U n) (F : c.Fits U pattern) (views : List View) (layout : Layout) (lanes : Exp)
    {outputs : List PatElem} (houtputs : ∀ p ∈ outputs, p ∈ pattern) :
    Yields setting n (c.copyRows views layout lanes outputs) (Quiet U) := by
  refine (Yields.lift (N.fresh_own (by decide))).bind fun j hj => ?_
  refine (Yields.mapM (Q := fun code => ∀ s ∈ code, Quiet U s) ?_).bind fun code hcode =>
    .pure (.when (.loop hj (.block fun s hs => ?_)))
  · rintro ⟨view, p⟩ hmem
    refine (output_yields F (houtputs p (List.of_mem_zip hmem).2)).bind fun dest ⟨hdest, _⟩ => ?_
    refine (Yields.lift (N.fresh_own (by decide))).bind fun v hv => .pure ?_
    simp only [List.forall_mem_cons, List.not_mem_nil, false_imp_iff, implies_true, and_true]
    exact ⟨.declare hv, .read hv, .write fun h => absurd hdest (by simp [h])⟩
  · obtain ⟨l, hl, hs⟩ := List.mem_flatten.mp hs
    exact hcode l hl s hs

theorem scanPart_fits (N : NewNames U n) (F : c.Fits U pattern) (inner : BodyScope) (op : Combiner)
    {results : BoundResults} (hresults : ∀ r ∈ results, r.1 ∈ pattern) :
    Yields setting n (c.scanPart inner op results) (Part.Fits U) := by
  have houtputs : ∀ p ∈ results.map (·.1), p ∈ pattern := by simpa using fun p r h => hresults (p, r) h
  unfold scanPart
  dsimp only
  split
  · refine (Yields.mapM fun p hp => output_yields F (houtputs p hp)).bind fun dests hdests => ?_
    have hviews : ∀ v ∈ dests.map (·.view), v.space ≠ .thread := by
      intro v hv
      obtain ⟨a, ha, rfl⟩ := List.mem_map.mp hv
      simp [(hdests a ha).1]
    refine (contributions_quiet N inner _ hviews results).bind fun stores hstores => ?_
    refine (Yields.lift (scanAll_uniform N F _ hviews _)).bind fun scan hscan => .pure ⟨by simp, hstores, ?_⟩
    simpa using hscan
  · split
    · exact .limitation
    · refine (scratch_yields op 3).bind fun (views, layout) ⟨hglobal, _⟩ => ?_
      have hviews : ∀ v ∈ views, v.space ≠ .thread := fun v hv => by simp [hglobal v hv]
      refine (contributions_quiet N inner _ hviews results).bind fun stores hstores => ?_
      refine (Yields.lift (scanAll_uniform N F _ hviews _)).bind fun scan hscan => ?_
      refine (copyRows_quiet N F _ _ _ houtputs).bind fun copy hcopy => .pure ⟨by simp, hstores, ?_⟩
      simp only [List.forall_mem_cons, List.not_mem_nil, false_imp_iff, implies_true, and_true]
      exact ⟨hscan, .quiet hcopy⟩

/-! ### Reductions -/

/-- Where totals lie in shared memory, all threads know the place. -/
def OverLayout (U : Common) : Layout → Prop
  | .shared base => base.Over U
  | .rows .. => True

theorem readTotals_uniform (N : NewNames U n) (F : c.Fits U pattern) {op : Combiner} (hop : ∀ x ∈ op.vars, U x)
    {views : List View} (hviews : ∀ v ∈ views, v.space ≠ .thread) {layout : Layout} (hlayout : OverLayout U layout)
    (hscalar : op.isScalar = true → layout.isRows = false) {outputs : List PatElem}
    (houtputs : ∀ p ∈ outputs, p ∈ pattern) {count : Exp} (hcount : count.Over U) {position : Exp → Exp}
    (hposition : ∀ e, e.Over U → (position e).Over U) {nonempty : Exp} (hnonempty : nonempty.Over U) :
    Yields setting n (c.readTotals op views layout outputs count position nonempty) (Uniform U) := by
  unfold readTotals
  dsimp only
  -- Either the totals are variables of all threads, or each is stored by the thread of its number.
  split
  · rename_i hone
    simp only [Bool.and_eq_true] at hone
    refine .pure (.block fun s hs => ?_)
    obtain ⟨⟨⟨view, p⟩, neutral⟩, hmem, rfl⟩ := List.mem_map.mp hs
    have hview := hviews view (List.of_mem_zip (List.of_mem_zip hmem).1).1
    refine .branch hnonempty (.read fun _ => ⟨?_, fun h => absurd h hview⟩) (.set fun _ => ?_)
    · cases layout with
      | shared base => exact over_add hlayout (hposition _ (over_int 0))
      | rows => exact absurd (hscalar hone.1.2) (by simp [Layout.isRows])
    · exact neutral_over hop neutral (List.of_mem_zip hmem).2
  · refine (Yields.lift (coverNumbers_uniform N F.launch (over_mul hcount ?_))).bind fun (i, nest) hnest => ?_
    · split
      · exact over_int 1
      · exact lanes_over hop
    refine (Yields.mapM (Q := fun code => ∀ s ∈ code, Quiet U s) ?_).bind fun code hcode =>
      .pure (hnest _ (.block fun s hs => ?_))
    · rintro ⟨⟨view, p⟩, neutral⟩ hmem
      have hp := houtputs p (List.of_mem_zip (List.of_mem_zip hmem).1).2
      refine (output_yields F hp).bind fun dest ⟨hdest, _⟩ => ?_
      refine (Yields.lift (N.fresh_own (by decide))).bind fun v hv => .pure ?_
      simp only [List.forall_mem_cons, List.not_mem_nil, false_imp_iff, implies_true, and_true]
      exact ⟨.declare hv, .branch (.read hv) (.set hv), .write fun h => absurd hdest (by simp [h])⟩
    · obtain ⟨l, hl, hs⟩ := List.mem_flatten.mp hs
      exact hcode l hl s hs

theorem reduceWhole_uniform (N : NewNames U n) (F : c.Fits U pattern) {op : Combiner} (hop : ∀ x ∈ op.vars, U x)
    {views : List View} (hviews : ∀ v ∈ views, v.space ≠ .thread) {layout : Layout} (hlayout : OverLayout U layout)
    (hscalar : op.isScalar = true → layout.isRows = false) {outputs : List PatElem}
    (houtputs : ∀ p ∈ outputs, p ∈ pattern) :
    Yields setting n (c.reduceWhole op views layout outputs) fun code => ∀ s ∈ code, Uniform U s := by
  have rest : ∀ reduction, Uniform U reduction → Yields setting n (do
      let totals ← c.readTotals op views layout outputs (.int 1) (fun _ => .int 0) (c.size.gt (.int 0))
      return [reduction, .barrier layout.fence, totals]) fun code => ∀ s ∈ code, Uniform U s := by
    intro reduction hreduction
    refine (readTotals_uniform N F hop hviews hlayout hscalar houtputs (over_int 1) (fun _ _ => over_int 0)
      (over_test F.size (over_int 0))).bind fun totals htotals => .pure ?_
    simp only [List.forall_mem_cons, List.not_mem_nil, false_imp_iff, implies_true, and_true]
    exact ⟨hreduction, .barrier, htotals⟩
  unfold reduceWhole
  dsimp only
  split
  · exact (Yields.lift (Collective.reduceChunks_uniform N F.launch _ hviews F.size)).bind rest
  · exact (Yields.lift (Collective.reduce_uniform N (c := ⟨c.launch, op.lambda, views, layout⟩) F.launch hviews _)).bind
      rest

theorem reduceSegments_uniform (N : NewNames U n) (F : c.Fits U pattern) {segment : Exp} (hsegment : segment.Over U)
    {op : Combiner} (hop : ∀ x ∈ op.vars, U x)
    {views : List View} (hviews : ∀ v ∈ views, v.space ≠ .thread) {layout : Layout} (hlayout : OverLayout U layout)
    (hscalar : op.isScalar = true → layout.isRows = false) {outputs : List PatElem}
    (houtputs : ∀ p ∈ outputs, p ∈ pattern) :
    Yields setting n (c.reduceSegments segment op views layout outputs) fun code => ∀ s ∈ code, Uniform U s := by
  refine (Yields.lift (scanAll_uniform N F op.lambda hviews layout)).bind fun scan hscan =>
    Yields.inRange.bind fun _ _ => ?_
  have hcount : (Exp.product c.op.space.dimExps.dropLast).Over U :=
    over_product fun e he => dimExps_over F.space_vars e (List.dropLast_subset _ he)
  refine (readTotals_uniform N F hop hviews hlayout hscalar houtputs hcount
    (fun e he => over_sub (over_add (over_mul he hsegment) hsegment) (over_int 1))
    (over_test hsegment (over_int 0))).bind fun totals htotals => .pure ?_
  simp only [List.forall_mem_cons, List.not_mem_nil, false_imp_iff, implies_true, and_true]
  exact ⟨hscan, htotals⟩

/-- The part of a reduction whose elements lie in the given arrays. -/
theorem reducePart_fits_of_views (N : NewNames U n) (F : c.Fits U pattern) (inner : BodyScope) {op : Combiner}
    (hop : ∀ x ∈ op.vars, U x) {results : BoundResults} (hresults : ∀ r ∈ results, r.1 ∈ pattern) (views : List View)
    (layout : Layout) (declares : List Stmt) (hviews : ∀ v ∈ views, v.space ≠ .thread) (hlayout : OverLayout U layout)
    (hscalar : op.isScalar = true → layout.isRows = false) (hdeclares : ∀ s ∈ declares, Uniform U s) :
    Yields setting n (do
      let stores ← (views.zip (results.map (·.2))).mapM fun (view, result) =>
        c.storeContribution inner layout view result
      let steps ← match c.segmentSize? with
        | none => c.reduceWhole op views layout (results.map (·.1))
        | some segment => c.reduceSegments segment op views layout (results.map (·.1))
      return ({ declares, stores, steps, fence := layout.fence } : Part)) (Part.Fits U) := by
  have houtputs : ∀ p ∈ results.map (·.1), p ∈ pattern := by simpa using fun p r h => hresults (p, r) h
  refine (contributions_quiet N inner _ hviews results).bind fun stores hstores => ?_
  split
  · exact (reduceWhole_uniform N F hop hviews hlayout hscalar houtputs).bind fun steps hsteps =>
      .pure ⟨hdeclares, hstores, hsteps⟩
  · rename_i segment hsegment
    exact (reduceSegments_uniform N F (F.segmentSize hsegment) hop hviews hlayout hscalar houtputs).bind
      fun steps hsteps => .pure ⟨hdeclares, hstores, hsteps⟩

theorem reducePart_fits (N : NewNames U n) (F : c.Fits U pattern) (inner : BodyScope) {op : Combiner}
    (hop : ∀ x ∈ op.vars, U x) {results : BoundResults} (hresults : ∀ r ∈ results, r.1 ∈ pattern) :
    Yields setting n (c.reducePart inner op results) (Part.Fits U) := by
  -- The elements lie in shared arrays of scalars, or in rows of global memory.
  unfold reducePart
  dsimp only
  split
  · refine Yields.bind (P := fun views => ∀ v ∈ views, View.space v = .shared) (Yields.mapM fun type _ => ?_)
      fun views hviews => ?_
    · exact (Yields.lift (N.fresh_own (by decide))).bind fun x _ => .pure rfl
    · refine reducePart_fits_of_views N F inner hop hresults views _ _ (fun v hv => by simp [hviews v hv]) (over_int 0)
        (fun _ => rfl) fun s hs => ?_
      obtain ⟨v, -, rfl⟩ := List.mem_map.mp hs
      exact .declareArray fun h => absurd h (by simp)
  · rename_i hshape
    split
    · exact .limitation
    · refine (scratch_yields op _).bind fun (views, layout) ⟨hglobal, hrows⟩ => ?_
      refine reducePart_fits_of_views N F inner hop hresults views layout [] (fun v hv => by simp [hglobal v hv]) ?_
        (fun h => absurd h hshape) (by simp)
      cases layout with
      | shared base => cases hrows
      | rows => trivial

/-! ### Histograms -/

theorem seedOne_uniform (N : NewNames U n) (F : c.Fits U pattern) {p : PatElem} (hp : p ∈ pattern) (initial : Ident) :
    Yields setting n (c.seedOne p initial) fun (code, view) => Uniform U code ∧ view.space = .shared := by
  refine (output_yields F hp).bind fun dest ⟨hdest, hshape⟩ => ?_
  have found : Yields setting n (c.scope.array? initial) fun _ => True := by
    unfold BodyScope.array?
    split
    · exact .pure trivial
    · exact Yields.globalArray?.imp fun _ _ => trivial
  refine found.bind fun source? _ => Yields.require.bind fun source _ => ?_
  refine (Yields.lift (coverNumbers_uniform N F.launch (over_product hshape))).bind fun (i, nest) hnest => ?_
  refine (Yields.lift (N.fresh_own (by decide))).bind fun v hv => .pure ⟨hnest _ ?_, hdest⟩
  exact moveElement_quiet (fun h => absurd hdest (by simp [h])) hv _ _

theorem seedAll_uniform (N : NewNames U n) (F : c.Fits U pattern) : ∀ {hs : List Histogram} {outputs : List PatElem},
    (∀ p ∈ outputs, p ∈ pattern) →
    Yields setting n (c.seedAll hs outputs) fun (code, views) =>
      (∀ s ∈ code, Uniform U s) ∧ ∀ vs ∈ views, ∀ v ∈ vs, v.space = .shared
  | [], _, _ => .pure ⟨by simp, by simp⟩
  | h :: hs, outputs, houtputs => by
    refine Yields.check.bind fun _ _ => Yields.inRange.bind fun _ _ => ?_
    refine (Yields.mapM (Q := fun seeded => Uniform U seeded.1 ∧ seeded.2.space = .shared) ?_).bind
      fun seeded hseeded => ?_
    · rintro ⟨p, initial⟩ hmem
      exact seedOne_uniform N F (houtputs p (List.mem_of_mem_take (List.of_mem_zip hmem).1)) initial
    refine (seedAll_uniform N F fun p hp => houtputs p (List.mem_of_mem_drop hp)).bind
      fun (code, views) ⟨hcode, hviews⟩ => .pure ⟨fun s hs => ?_, fun vs hvs => ?_⟩
    · rcases List.mem_append.mp hs with hs | hs
      · obtain ⟨r, hr, rfl⟩ := List.mem_map.mp hs
        exact (hseeded r hr).1
      · exact hcode s hs
    · rcases List.mem_cons.mp hvs with rfl | hvs
      · intro v hv
        obtain ⟨r, hr, rfl⟩ := List.mem_map.mp hv
        exact (hseeded r hr).2
      · exact hviews vs hvs

theorem sharedLocks_uniform (N : NewNames U n) (F : c.Fits U pattern) :
    Yields setting n c.sharedLocks fun (locking, code) => locking.locks.space = .shared ∧ ∀ s ∈ code, Uniform U s := by
  refine (Yields.lift (N.fresh_own (by decide))).bind fun locks hlocks => ?_
  refine (Yields.lift (coverNumbers_uniform N F.launch F.launch.groupSize)).bind fun (i, nest) hnest => .pure ⟨rfl, ?_⟩
  simp only [List.forall_mem_cons, List.not_mem_nil, false_imp_iff, implies_true, and_true]
  exact ⟨.declareArray fun h => absurd h (by simp), hnest _ (.write fun h => absurd h (by simp))⟩

theorem updateBuckets_uniform (N : NewNames U n) (F : c.Fits U pattern) {hs : List Histogram} {dests : List (List View)}
    {locking : Option Locking} {updates : List AtomicUpdate}
    (hdests : ∀ views ∈ dests, ∀ v ∈ views, v.space = .shared) (hlocks : ∀ l ∈ locking, l.locks.space = .shared) :
    Yields setting n (c.updateBuckets pattern hs locking updates dests) (Uniform U) := by
  have plain : ∀ r : BodyResult, Yields setting n (do return (← c.plain r).toExp : Lowering Exp) fun _ =>
    True := fun r =>
    (plain_yields r _ _).bind fun _ _ => .pure trivial
  refine (body_quiet F).bind fun (code, inner) ⟨hcode, hinner⟩ => Yields.inRange.bind fun _ _ => ?_
  refine (updateCode_quiet N (fun l hl => by simp [hlocks l hl]) _ _ plain ?_).bind
    fun contributions hcontributions => ?_
  · intro h hmem d hd
    simp [hdests h.2 (List.of_mem_zip hmem).2 d hd]
  refine mappedResults_yields.bind fun results hresults => ?_
  refine (mappedStores_quiet N F hinner hresults).bind fun mapped hmapped => cover_uniform N F fun s hs => ?_
  simp only [List.cons_append, List.mem_cons, List.mem_append, List.not_mem_nil, or_false] at hs
  rcases hs with rfl | hs | rfl
  · exact hcode
  · exact hcontributions s hs
  · exact hmapped

theorem histogramCode_uniform (N : NewNames U n) (F : c.Fits U pattern) (hs : List Histogram) :
    Yields setting n (c.histogramCode pattern hs) (Uniform U) := by
  refine Yields.check.bind fun _ _ => ?_
  refine (seedAll_uniform N F fun _ hp => hp).bind fun (seed, dests) ⟨hseed, hdests⟩ => Yields.read.bind fun s _ => ?_
  -- What comes after the locks, if there are any.
  have rest {locking : Option Locking} {freeLocks : List Stmt} (hlocks : ∀ l ∈ locking, l.locks.space = .shared)
      (hfree : ∀ s ∈ freeLocks, Uniform U s) : Yields setting n (do
        let visit ← c.updateBuckets pattern hs locking (hs.map fun h => h.lambda.atomicUpdate s.config.atomics) dests
        return .block (seed ++ freeLocks ++ [.barrier .shared, visit])) (Uniform U) := by
    refine (updateBuckets_uniform N F hdests hlocks).bind fun visit hvisit => .pure (.block fun s hs => ?_)
    simp only [List.mem_append, List.mem_cons, List.not_mem_nil, or_false] at hs
    rcases hs with (hs | hs) | rfl | rfl
    · exact hseed s hs
    · exact hfree s hs
    · exact .barrier
    · exact hvisit
  dsimp only
  split
  · exact (sharedLocks_uniform N F).bind fun (locking, code) ⟨hlocks, hcode⟩ => rest (by simpa using hlocks) hcode
  · exact rest (by simp) (by simp)

/-! ### The four kinds -/

theorem mapCode_uniform (N : NewNames U n) (F : c.Fits U pattern) :
    Yields setting n (c.mapCode pattern) (Uniform U) := by
  refine (body_quiet F).bind fun (code, inner) ⟨hcode, hinner⟩ => ?_
  refine (mappedStores_quiet N F hinner zip_pattern).bind fun stores hstores => cover_uniform N F ?_
  simp only [List.forall_mem_cons, List.not_mem_nil, false_imp_iff, implies_true, and_true]
  exact ⟨hcode, hstores⟩

end
end Context

variable {U : Common} {setting : Setting} {n : Nat}

theorem declarePattern_uniform (pattern : List PatElem) : Uniform U (declarePattern pattern) := by
  refine .block fun s hs => ?_
  obtain ⟨p, -, rfl⟩ := List.mem_map.mp hs
  split
  · exact .declare
  · exact .declareArray fun h => absurd h (by simp)

theorem code_uniform (N : NewNames U n) {scope : BodyScope} {pattern : List PatElem} {op : SegOp}
    (F : Context.Fits U pattern ⟨scope.addArrays (patternArrays pattern), op⟩) :
    Yields setting n (code scope pattern op) fun (code, inner) =>
      Uniform U code ∧ inner = scope.addArrays (patternArrays pattern) := by
  refine Yields.check.bind fun _ _ => ?_
  have rest : ∀ body, Uniform U body → Yields setting n
      (pure (Stmt.comment op.kind.name (.block [declarePattern pattern, body, .barrier .shared]),
        scope.addArrays (patternArrays pattern)))
      fun (code, inner) => Uniform U code ∧ inner = scope.addArrays (patternArrays pattern) := by
    intro body hbody
    refine .pure ⟨.comment (.block ?_), rfl⟩
    simp only [List.forall_mem_cons, List.not_mem_nil, false_imp_iff, implies_true, and_true]
    exact ⟨declarePattern_uniform pattern, hbody, .barrier⟩
  dsimp only
  split
  · exact (Context.mapCode_uniform N F).bind rest
  · exact (Context.withOperators_uniform N F fun inner op' _ own hown => Context.scanPart_fits N F inner op' hown).bind
      rest
  · rename_i ops hkind
    refine (Context.withOperators_uniform N F fun inner op' hop own hown =>
      Context.reducePart_fits N F inner (fun x hx => ?_) hown).bind rest
    refine F.vars x (List.mem_append_right _ ?_)
    rw [hkind]
    exact List.mem_flatMap.mpr ⟨op', hop, hx⟩
  · exact (Context.histogramCode_uniform N F _).bind rest

end SegKernel.Nested
