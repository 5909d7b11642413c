import SegKernel.Lowering.Program
import SegKernel.Lowering.Reduction
import SegKernel.Proofs.Convergence.Counted
import SegKernel.Proofs.Convergence.ThreadKernels

/-! Kernels of reductions. Each thread folds points of its own; then the group combines what its threads
    have, together. How the threads combine depends on the size of the group alone. -/

namespace SegKernel
open Fresh Exp Lowering

/-- The variables of an accumulator have new names, of a stem that threads have for themselves. -/
def Accumulator.Named (a : Accumulator) : Prop := ∀ v ∈ a.vars, ∃ k, v = numbered "acc" k

section
variable {U : Common} {setting : Setting} {n : Nat}

theorem ofOp_named (op : Combiner) : From n (Accumulator.ofOp op) Accumulator.Named :=
  (From.freshFor _ _).bind fun _ h => .pure fun v hv => (h v hv).imp fun _ hk => hk.2

theorem Accumulator.Named.not_common {a : Accumulator} (h : a.Named) (founded : U.Founded) : ∀ v ∈ a.vars, ¬U v := by
  intro v hv
  obtain ⟨k, rfl⟩ := h v hv
  exact founded.own _ (by decide) (by decide) _

theorem declare_quiet {a : Accumulator} (h : ∀ v ∈ a.vars, ¬U v) : Quiet U a.declare := by
  refine .block fun s hs => ?_
  obtain ⟨⟨⟨v, type⟩, neutral⟩, hmem, rfl⟩ := List.mem_map.mp hs
  exact .declareInit (h v (List.of_mem_zip (List.of_mem_zip hmem).1).1)

theorem foldAll_quiet (N : NewNames U n) : ∀ (accs : List Accumulator) (values : List Exp),
    (∀ a ∈ accs, ∀ v ∈ a.vars, ¬U v) →
    Yields setting n (Accumulator.foldAll accs values) fun code => ∀ s ∈ code, Quiet U s
  | [], _, _ => .pure (by simp)
  | a :: as, values, h => by
    unfold Accumulator.foldAll
    refine Yields.inRange.bind fun _ _ => ?_
    refine (Yields.lift (Collective.assign_quiet N _ _ _ (h a List.mem_cons_self))).bind fun code hcode => ?_
    refine (foldAll_quiet N as _ fun b hb => h b (List.mem_cons_of_mem a hb)).bind fun codes hcodes =>
      .pure fun s hs => ?_
    rcases List.mem_cons.mp hs with rfl | hs
    · exact hcode
    · exact hcodes s hs

theorem combineOne_uniform (N : NewNames U n) {launch : Launch} (L : launch.Fits U) (a : Accumulator)
    {dests : List View} (hdests : ∀ d ∈ dests, d.space = .global) (index : Exp) :
    From n (Accumulator.combineOne launch a dests index) (Uniform U) := by
  refine (From.freshFor _ _).bind fun names _ => ?_
  have hviews : ∀ v ∈ (names.zip a.op.lambda.resultTypes).map (fun p => (⟨p.1, p.2, .shared, false⟩ : View)),
      v.space ≠ .thread := by
    intro v hv
    obtain ⟨p, -, rfl⟩ := List.mem_map.mp hv
    simp
  refine (Collective.reduce_uniform N (c := ⟨launch, a.op.lambda, _, _⟩) L hviews _).bind fun reduction hreduction => ?_
  refine (From.mapM (Q := fun code => ∀ s ∈ code, Quiet U s) ?_).bind fun store hstore => .pure (.block ?_)
  · rintro ⟨view, dest⟩ hmem
    refine (N.fresh_own (by decide)).bind fun v hv => .pure ?_
    simp only [List.forall_mem_cons, List.not_mem_nil, false_imp_iff, implies_true, and_true]
    exact ⟨.declare hv, .read hv, .write fun h => absurd (hdests dest (List.of_mem_zip hmem).2) (by simp [h])⟩
  -- The code declares and fills the arrays, reduces them, and the first thread stores the totals.
  · intro s hs
    rcases List.mem_append.mp hs with hs | hs
    · obtain ⟨⟨view, v⟩, hmem, hs⟩ := List.mem_flatMap.mp hs
      have hview := hviews view (List.of_mem_zip hmem).1
      simp only [List.mem_cons, List.not_mem_nil, or_false] at hs
      rcases hs with rfl | rfl
      · exact .declareArray fun h => by cases h
      · exact .quiet (.write fun h => absurd h hview)
    · simp only [List.mem_cons, List.not_mem_nil, or_false] at hs
      rcases hs with rfl | rfl | rfl | rfl
      · exact .barrier
      · exact hreduction
      · exact .barrier
      · refine .quiet (.when (.block fun s hs => ?_))
        obtain ⟨code, hcode, hs⟩ := List.mem_flatten.mp hs
        exact hstore code hcode s hs

theorem combineAll_uniform (N : NewNames U n) {launch : Launch} (L : launch.Fits U) (index : Exp) :
    ∀ (accs : List Accumulator) (dests : List View), (∀ d ∈ dests, d.space = .global) →
      From n (Accumulator.combineAll launch index accs dests) fun code => ∀ s ∈ code, Uniform U s
  | [], _, _ => .pure (by simp)
  | a :: as, dests, hdests => by
    refine (combineOne_uniform N L a hdests index).bind fun code hcode => ?_
    refine (combineAll_uniform N L index as _ fun d hd => hdests d (List.mem_of_mem_drop hd)).bind fun codes hcodes =>
      .pure fun s hs => ?_
    rcases List.mem_cons.mp hs with rfl | hs
    · exact hcode
    · exact hcodes s hs

theorem reductionParts_yields (pattern : List PatElem) (op : SegOp) (ops : List Combiner) :
    Yields setting n (reductionParts pattern op ops) fun parts => ∀ d ∈ parts.dests, d.space = .global := by
  have rest : ∀ components : Nat, Yields setting n (do
      Lowering.inRange components op.results.length
      let contributions ← (op.results.take components).mapM fun result => do
        return (← result.plain .reductionValue op.span).toExp
      Lowering.inRange components pattern.length
      let dests ← (pattern.take components).mapM fun p => do
        return (← globalArray p.name "segred" op.span).view
      return ({ dests, contributions, mapped := (pattern.zip op.results).drop components } : ReductionParts) :
        Lowering ReductionParts)
      fun parts => ∀ d ∈ parts.dests, d.space = .global := by
    intro components
    refine Yields.inRange.bind fun _ _ => ?_
    refine (Yields.mapM (Q := fun _ => True) fun r _ => (plain_yields r _ _).bind fun _ _ => .pure trivial).bind
      fun contributions _ => Yields.inRange.bind fun _ _ => ?_
    exact (Yields.mapM fun p _ => Yields.globalArray.bind fun a ha => .pure ha).bind fun dests hdests => .pure hdests
  unfold reductionParts
  dsimp only
  split
  · exact Yields.limitation.bind (P := fun _ => False) fun _ h => h.elim
  · split
    · exact Yields.limitation.bind (P := fun _ => False) fun _ h => h.elim
    · exact Yields.check.bind fun _ _ => rest _

/-! ### The first kernel -/

theorem mul_needs {a b : Operand} : ∀ name ∈ a.toExp.occurrences ++ b.toExp.occurrences,
    name ∈ (a.toExp * b.toExp).occurrences ∧ (a.toExp * b.toExp).int? = none := by
  intro name hname
  show name ∈ (Exp.apply .mul a.toExp b.toExp).occurrences ∧ (Exp.apply .mul a.toExp b.toExp).int? = none
  -- A constant that is no unit stays an operand, and a product with a variable is no constant.
  have folds : folded? .mul a.toExp b.toExp = none ∨ a.toExp.occurrences ++ b.toExp.occurrences = [] := by
    cases a with
    | const v =>
      cases b with
      | const w => exact Or.inr rfl
      | var y => exact Or.inl (by cases v <;> rfl)
    | var x => exact Or.inl rfl
  rcases folds with folds | empty
  · unfold Exp.apply unitOperand
    rw [folds]
    dsimp only
    split
    · rename_i hone
      cases a with
      | const v =>
        cases b with
        | const w => simp [Operand.toExp, occurrences] at hname
        | var y => exact ⟨by simpa [Operand.toExp, occurrences] using hname, rfl⟩
      | var x => simp [Operand.toExp, int?] at hone
    · split
      · rename_i hone
        cases b with
        | const w =>
          cases a with
          | const v => simp [Operand.toExp, occurrences] at hname
          | var x => exact ⟨by simpa [Operand.toExp, occurrences] using hname, rfl⟩
        | var y => simp [Operand.toExp, int?] at hone
      · exact ⟨hname, rfl⟩
  · rw [empty] at hname
    simp at hname

theorem int?_add_var (x : Exp) (v : Ident) : (x + Exp.var v).int? = none := by
  show (Exp.apply .add x (.var v)).int? = none
  unfold Exp.apply
  have folds : folded? .add x (.var v) = none := by
    unfold folded?
    split
    · rename_i h
      simp [int?] at h
    · rfl
  rw [folds]
  unfold unitOperand
  dsimp only
  split
  · rfl
  · split
    · rename_i h
      simp [int?] at h
    · rfl

/-- What a thread does at one of its points. -/
theorem visit_quiet {op : SegOp} (hnames : ∀ x ∈ op.names, ¬U x) (point : Exp) {body mapped : Stmt}
    (hbody : Quiet U body) (hmapped : Quiet U mapped) {fold : List Stmt} (hfold : ∀ s ∈ fold, Quiet U s) :
    Quiet U (.block ([.declareInit op.space.flat .i64 point] ++
      (op.space.indices.map fun i => Stmt.declareInit i .i64 (.var op.space.flat)) ++ [body, mapped] ++ fold)) := by
  refine .block fun s hs => ?_
  have hspace : ∀ x ∈ op.space.names, ¬U x := fun x hx => hnames x (List.mem_append_left _ hx)
  simp only [List.mem_append, List.mem_cons, List.not_mem_nil, or_false] at hs
  rcases hs with ((rfl | hs) | rfl | rfl) | hs
  · exact .declareInit (hspace _ List.mem_cons_self)
  · obtain ⟨i, hi, rfl⟩ := List.mem_map.mp hs
    exact .declareInit (hspace i (List.mem_cons_of_mem _ hi))
  · exact hbody
  · exact hmapped
  · exact hfold s hs

theorem visit_declares {op : SegOp} {point : Exp} {body mapped : Stmt} {fold : List Stmt} {name : Ident}
    (hbody : ∀ x ∈ op.stms.flatMap BodyStm.binds, x ∈ body.declared) (h : name ∈ op.names) :
    name ∈ (Stmt.block ([.declareInit op.space.flat .i64 point] ++
      (op.space.indices.map fun i => Stmt.declareInit i .i64 (.var op.space.flat)) ++ [body, mapped] ++
        fold)).declared := by
  rw [Stmt.mem_declared_block]
  simp only [List.mem_append, List.mem_cons, List.not_mem_nil, or_false]
  rcases List.mem_append.mp h with h | h
  · rcases List.mem_cons.mp h with rfl | h
    · exact ⟨_, Or.inl (Or.inl (Or.inl rfl)), Stmt.mem_declared_declareInit.mpr rfl⟩
    · exact ⟨_, Or.inl (Or.inl (Or.inr (List.mem_map_of_mem h))), Stmt.mem_declared_declareInit.mpr rfl⟩
  · exact ⟨body, Or.inl (Or.inr (Or.inl rfl)), hbody name h⟩

/-- The sizes of a launch are common, or one of them needs a name of `own`. -/
theorem fits_or_needs {launch : Launch} {g : Grid} {counter : Nat} {own : Ident → Prop}
    (hnum : launch.numGroups = g.groupCount) (hsize : launch.groupSize = g.groupWidth)
    (hchunks : launch.chunkCounts = []) (hgrid : ∀ x ∈ g.vars, ¬Generated x)
    (hgroup : kernelCommon counter own launch.groupId) (hwave : kernelCommon counter own launch.waveWidth) :
    launch.Fits (kernelCommon counter own) ∨
      ∃ name ∈ g.groupCount.occurrences ++ g.groupWidth.occurrences, own name ∧ ¬Generated name := by
  have counted : kernelCommon counter own (numbered "i" counter) := Or.inr (Or.inl rfl)
  rcases over_or_needs counted (besides_over fun x hx =>
    hgrid x (List.mem_append_left _ hx)) with hgroups | ⟨name, h, hname⟩
  · rcases over_or_needs counted (besides_over fun x hx =>
      hgrid x (List.mem_append_right _ hx)) with hwidth | ⟨name, h, hname⟩
    · exact Or.inl ⟨hgroup, hwave, hnum ▸ hgroups, hsize ▸ hwidth, by simp [hchunks]⟩
    · exact Or.inr ⟨name, List.mem_append_right _ h, hname⟩
  · exact Or.inr ⟨name, List.mem_append_left _ h, hname⟩

theorem reducePoints_emits {op : SegOp} (h : setting.env.Admits op) (ops : List Combiner) (parts : ReductionParts)
    {partials : List View} (hpartials : ∀ v ∈ partials, v.space = .global) :
    Emits setting n (reducePoints op ops parts partials) fun _ => True := by
  refine Emits.start_bind fun launch entry m _ hpos hnum hsize hthreads hchunks hstart hquiet => ?_
  -- Any name that is not new may be common, but what the body binds is not.
  have N := kernelCommon_newNames (· ∈ op.names) hpos
  have founded : (threadCommon 0 op).Founded := kernelCommon_founded
  refine (Emits.of_yields (Yields.mapM fun c _ => Yields.lift (ofOp_named c))).bind fun accs haccs => ?_
  refine (Emits.of_yields Yields.inRange).bind fun _ _ => ?_
  refine (Emits.of_yields (Yields.lift (From.fresh _))).bind fun perThread ⟨j, _, hperThread⟩ => ?_
  refine (Emits.of_yields (Yields.lift (N.fresh_own (by decide)))).bind fun k hk => ?_
  have hbinds : ∀ x ∈ op.stms.flatMap BodyStm.binds, ¬threadCommon 0 op x := fun x hx =>
    h.own_names x (List.mem_append_right _ hx)
  refine (Emits.of_yields ((threadBody_quiet hbinds).and (threadBody_declares _ _))).bind
    fun (body, inner) ⟨⟨hbody, _⟩, hbinds'⟩ => ?_
  refine (Emits.of_yields (threadResults_quiet N _ fun _ _ _ _ _ => id)).bind fun mapped hmapped => ?_
  refine (Emits.of_yields (foldAll_quiet N _ _ fun a ha => (haccs a ha).not_common founded)).bind fun fold hfold => ?_
  have hcombine : From m (Accumulator.combineAll launch launch.gid accs partials) fun code =>
      launch.Fits (threadCommon 0 op) → ∀ s ∈ code, Uniform (threadCommon 0 op) s := by
    by_cases L : launch.Fits (threadCommon 0 op)
    · exact (combineAll_uniform N L _ _ _ hpartials).imp fun _ hcode _ => hcode
    · have founded' : (kernelCommon 0 fun _ => False).Founded := kernelCommon_founded
      obtain ⟨hgroup, hwave, -⟩ := hstart _ founded'
      rcases fits_or_needs hnum hsize hchunks h.grid_generated hgroup hwave with L' | ⟨_, _, hfalse, _⟩
      · exact (combineAll_uniform (kernelCommon_newNames _ hpos) L' _ _ _ hpartials).imp fun _ _ hL => absurd hL L
      · exact hfalse.elim
  refine (Emits.of_yields (Yields.lift hcombine)).bind fun store hstore => ?_
  refine emitKernel_emits _ _ _ fun kernel hkernel hcaptures => ?_
  obtain ⟨hgroup, hwave, hentry⟩ := hstart _ founded
  rcases fits_or_needs hnum hsize hchunks h.grid_generated hgroup hwave with L | ⟨name, hname, hown, hgen⟩
  · refine Kernel.converges_of_uniform (threadCommon 0 op) (.block fun s hs => ?_) hkernel
    simp only [List.mem_append, List.mem_cons, List.not_mem_nil, or_false] at hs
    rcases hs with ((rfl | hs) | rfl | rfl) | hs
    · exact hentry
    · obtain ⟨a, ha, rfl⟩ := List.mem_map.mp hs
      exact .quiet (declare_quiet ((haccs a ha).not_common founded))
    · exact .quiet (.declareInit (hperThread ▸ founded.own _ (by decide) (by decide) _))
    · exact .quiet (.comment (.loop hk (.when (visit_quiet h.own_names _ hbody hmapped hfold))))
    · exact hstore L s hs
  · -- The number of points of a thread needs the name, which the body declares later.
    obtain ⟨hneeds, hnotInt⟩ := mul_needs name hname
    have differs : ∀ stem ∈ ownStems, ∀ i, numbered stem i ≠ name := fun stem hstem i e =>
      hgen (e ▸ generated_of_own hstem i)
    have counts : Halts name (.declareInit perThread .i64
      ((Exp.product op.space.dimExps).divUp launch.numThreads)) := by
      refine .declareInit (hperThread ▸ differs _ (by decide) _) ?_ ?_
      · rw [hthreads]
        refine .divUp (.product fun e he => ?_) (.mul (.toExp _) (.toExp _))
        obtain ⟨d, -, rfl⟩ := List.mem_map.mp he
        exact .toExp _
      · rw [hthreads]
        exact divUp_needs hnotInt name hneeds
    have quiet : ∀ s ∈ entry :: accs.map Accumulator.declare, Quiet (Common.only name) s := by
      intro s hs
      rcases List.mem_cons.mp hs with rfl | hs
      · exact hquiet _ fun x hx => hx ▸ hgen
      · obtain ⟨a, ha, rfl⟩ := List.mem_map.mp hs
        refine declare_quiet fun v hv => ?_
        obtain ⟨i, rfl⟩ := haccs a ha v hv
        exact differs _ (by decide) i
    refine Kernel.converges_of_halts (Halts.block _ _ (List.append_assoc _ _ _) quiet counts) hkernel ?_ hcaptures
    refine Stmt.mem_declared_block.mpr ⟨_, List.mem_append_left _ (List.mem_append_right _ (List.mem_cons_of_mem _
      List.mem_cons_self)), ?_⟩
    rw [Stmt.declared, Stmt.declared]
    refine List.mem_cons_of_mem _ (Stmt.mem_declared_when ?_ (visit_declares hbinds' hown))
    split <;> simp [Exp.lt, test, Launch.gtid, int?_add_var, bool?]

/-! ### The second kernel -/

theorem reducePartials_emits {op : SegOp} (h : setting.env.Admits op) (ops : List Combiner) (partials : List View)
    {dests : List View} (hdests : ∀ v ∈ dests, v.space = .global) :
    Emits setting n (reducePartials op ops partials dests) fun _ => True := by
  refine Emits.start_bind fun launch entry m _ hpos hnum hsize _ hchunks hstart _ => ?_
  -- The code declares new names only, so all others are common.
  have N := kernelCommon_newNames (fun _ => False) hpos
  have founded : (kernelCommon 0 fun _ => False).Founded := kernelCommon_founded
  obtain ⟨hgroup, hwave, hentry⟩ := hstart _ founded
  have L : launch.Fits (kernelCommon 0 fun _ => False) := by
    refine ⟨hgroup, hwave, hnum ▸ over_int 1, hsize ▸ Operand.over_toExp fun x hx => ?_, by simp [hchunks]⟩
    exact Or.inr (Or.inr ⟨h.grid_generated x (List.mem_append_right _ hx), id⟩)
  refine (Emits.of_yields (Yields.mapM fun c _ => Yields.lift (ofOp_named c))).bind fun accs haccs => ?_
  have quietAccs : ∀ a ∈ accs, ∀ v ∈ a.vars, ¬kernelCommon 0 (fun _ => False) v := fun a ha =>
    (haccs a ha).not_common founded
  refine (Emits.of_yields (Yields.lift (N.fresh_own (by decide)))).bind fun perThread hperThread => ?_
  refine (Emits.of_yields (Yields.lift (N.fresh_own (by decide)))).bind fun k hk => ?_
  refine (Emits.of_yields (Yields.lift (N.freshFor_own (by decide) _))).bind fun names hnames => ?_
  refine (Emits.of_yields (foldAll_quiet N _ _ quietAccs)).bind fun fold hfold => ?_
  refine (Emits.of_yields (Yields.lift (combineAll_uniform N L _ _ _ hdests))).bind fun store hstore => ?_
  refine emitKernel_emits _ _ _ fun kernel hkernel _ => Kernel.converges_of_uniform (kernelCommon 0 fun _ => False)
    (.block fun s hs => ?_) hkernel
  simp only [List.mem_append, List.mem_cons, List.not_mem_nil, or_false] at hs
  rcases hs with ((rfl | hs) | rfl | rfl) | hs
  · exact hentry
  · obtain ⟨a, ha, rfl⟩ := List.mem_map.mp hs
    exact .quiet (declare_quiet (quietAccs a ha))
  · exact .quiet (.declareInit hperThread)
  · refine .quiet (.comment (.loop hk (.when (.block fun s hs => ?_))))
    rcases List.mem_append.mp hs with hs | hs
    · obtain ⟨⟨view, v⟩, hmem, hs⟩ := List.mem_flatMap.mp hs
      have hv := hnames v (List.of_mem_zip hmem).2
      simp only [List.mem_cons, List.not_mem_nil, or_false] at hs
      rcases hs with rfl | rfl
      · exact .declare hv
      · exact .read hv
    · exact hfold s hs
  · exact hstore s hs

theorem reduceByThreads_emits {pattern : List PatElem} {op : SegOp} (ops : List Combiner) (h : setting.env.Admits op) :
    Emits setting n (reduceByThreads pattern op ops) fun _ => True := by
  refine (Emits.of_yields (reductionParts_yields pattern op ops)).bind fun parts hdests => ?_
  refine (Emits.of_yields (Yields.mapM fun _ _ => Yields.allocate (by decide))).bind fun partials hpartials => ?_
  exact (reducePoints_emits h ops parts hpartials).bind fun _ _ => reducePartials_emits h ops partials hdests

end

/-! ## Modules

All kernels of a lowered module converge. -/
open Lowering

theorem segmented_emits {setting : Setting} {n : Nat} {pattern : List PatElem} {op : SegOp}
    (h : setting.env.Admits op) : Emits setting n (segmented pattern op) fun _ => True := by
  unfold segmented
  split
  · exact mapByThreads_emits h
  · exact mapByGroups_emits h
  · exact reduceByThreads_emits _ h
  · exact histogramByThreads_emits _ h
  · exact .of_yields .limitation
  · exact .of_yields .defect

theorem hostOp_emits {setting : Setting} {n : Nat} {op : HostOp}
    (h : ∀ pattern inner, op = .seg pattern inner → setting.env.Admits inner) :
    Emits setting n (hostOp op) fun _ => True := by
  cases op with
  | seg pattern inner => exact segmented_emits (h pattern inner rfl)
  | replicate dest value => exact replicate_emits dest value
  | iota dest start step => exact iota_emits dest start step
  | copy dest source => exact copy_emits dest source

theorem Module.admits {m : Module} (hscope : m.WellScoped) (hnames : m.AvoidsGenerated) {pattern : List PatElem}
    {op : SegOp} (h : HostOp.seg pattern op ∈ m.ops) : m.env.Admits op where
  inScope := (hscope pattern op h).1
  apart := (hscope pattern op h).2
  names := hnames.2 pattern op h
  host := hnames.1

/-- The kernels of a lowered module converge. -/
theorem lower_converges {m : Module} {config : Config} {p : Program} (h : m.lower config = .ok p)
    (hscope : m.WellScoped) (hnames : m.AvoidsGenerated) : ∀ k ∈ p.kernels, k.Converges := by
  have emits : Emits ⟨config, m.env⟩ 0 (m.ops.forM Lowering.hostOp) fun _ => True := by
    refine Emits.forM fun op hop => hostOp_emits fun pattern inner e => ?_
    exact m.admits hscope hnames (e ▸ hop)
  have hrun : ((m.ops.forM Lowering.hostOp) ⟨config, m.env⟩ {}).map (·.2.program) = .ok p := h
  cases hr : (m.ops.forM Lowering.hostOp) ⟨config, m.env⟩ {} with
  | error e =>
    rw [hr] at hrun
    cases hrun
  | ok r =>
    obtain ⟨u, σ⟩ := r
    rw [hr] at hrun
    obtain rfl : σ.program = p := Except.ok.inj hrun
    intro k hk
    obtain ⟨-, -, -, hkernels⟩ := emits {} u σ (Nat.zero_le _) (by simp [Allocated]) hr
    exact (hkernels k hk).resolve_left (by simp)

/-- Every barrier is reached by the whole group. Whatever the device, the memory and the order in which
    the threads of a group take their turns, the device counts one barrier for each mask, also where the
    run ends with a fault, and each mask has exactly the threads of the group. -/
theorem barriers_reach_whole_group {m : Module} {config : Config} {p : Program} (hp : m.lower config = .ok p)
    (hscope : m.WellScoped) (hnames : m.AvoidsGenerated) {k : Kernel} (hk : k ∈ p.kernels) {d : Device} {host : Scope}
    {global : Memory} {ctx : GroupContext} (hctx : d.context host global k = .ok ctx) (g : Nat) (schedule : Schedule)
    {start : GroupState} (hstart : start.threads = Array.replicate ctx.groupSize.toInt.toNat {}) :
    let run := Run.exec { ctx with group := Int64.ofNat g } k.body (schedule.order ctx.groupSize.toInt.toNat)
    let masks := Run.barrierMasks { ctx with group := Int64.ofNat g } k.body
      (schedule.order ctx.groupSize.toInt.toNat) start
    (run.ending start).stats.barriers = start.stats.barriers + masks.length ∧
      ∀ mask ∈ masks, ∀ t, t ∈ mask ↔ t < ctx.groupSize.toInt.toNat := by
  refine ⟨Run.exec_counts _ _ _ start, ?_⟩
  intro mask hmask t
  rw [lower_converges hp hscope hnames k hk d host global ctx hctx g schedule start hstart mask hmask]
  exact schedule.mem_order _ t

/-- Two groups of two threads that make the rows of an array, with an operation inside for each row. -/
def rowsModule : Module where
  env := { arrays := ({} : Table (ScalarType × List Operand)).insert "dst" (.i64, [.int 3, .int 2]) }
  ops := [.seg [⟨"dst", .i64, [.int 3, .int 2]⟩] {
    kind := .map
    grid := ⟨.group, .int 2, .int 2, .virtualize⟩
    space := ⟨"g", [("i", .int 3)]⟩
    stms := [.nested [⟨"row", .i64, [.int 2]⟩] {
      kind := .map
      grid := ⟨.thread, .int 2, .int 2, .direct⟩
      space := ⟨"l", [("j", .int 2)]⟩
      stms := []
      results := [.returns (.var "j")] }]
    results := [.returns (.var "row")] }]

theorem rowsModule_hasName {x : Ident} (h : rowsModule.env.HasName x) : x = "dst" := HostEnv.eq_of_hasName rfl h

theorem rowsModule_wellScoped : rowsModule.WellScoped := by
  intro pattern op h
  obtain ⟨rfl, rfl⟩ : _ ∧ _ := by simpa [rowsModule] using h
  have notHost : ∀ x, x ≠ "dst" → ¬rowsModule.env.HasName x := fun x hx h => hx (rowsModule_hasName h)
  have notKnown : ∀ x, x ≠ "dst" → ¬rowsModule.env.Known x := fun x hx h =>
    notHost x hx (HostEnv.Admits.hasName_of_known h)
  constructor
  · simp [Segmented.Scoped, BodyStm.ScopedAll, BodyStm.Scoped, Grid.vars, Operand.vars, Operand.int,
      IterationSpace.vars, IterationSpace.names, IterationSpace.indices, SegKind.vars, SegKind.lambdas, scopeWith,
      BodyStm.binds, BodyResult.vars, notKnown]
  · simp [BodyStm.ApartAll, BodyStm.Apart, Segmented.Apart, IterationSpace.names, IterationSpace.indices, scopeWith,
      BodyStm.binds, Segmented.names, notHost]

theorem rowsModule_avoidsGenerated : rowsModule.AvoidsGenerated := by
  have plain : ∀ x ∈ ["dst", "g", "i", "row", "l", "j"], ¬Generated x := fun x hx =>
    not_generated (by revert x; decide)
  refine ⟨fun x hx => plain x (by simp [rowsModule_hasName hx]), fun pattern op h x hx => plain x ?_⟩
  obtain ⟨rfl, rfl⟩ : _ ∧ _ := by simpa [rowsModule] using h
  simpa [Segmented.allNames, BodyStm.innerNamesAll, BodyStm.innerNames, BodyStm.binds, IterationSpace.names,
    IterationSpace.indices] using Or.inr hx

/-- A device with room for the rows. -/
def rowsDevice : Device := { wave := 1, global := ({} : Memory).insert "dst" (.zeroed .i64 6) }

/-- The state in which its first group starts. -/
def rowsStart : GroupState := { threads := Array.replicate 2 {}, global := rowsDevice.global, stats := {} }

/-- The module is lowered, and its kernel is launched with groups of two threads that meet four barriers. -/
theorem rowsModule_runs :
    (match rowsModule.lower {} with
    | .ok p => match p.kernels with
      | k :: _ => match rowsDevice.context (fun _ => none) rowsDevice.global k with
        | .ok ctx => ctx.groupSize == 2 && ctx.group == 0 &&
          (Run.barrierMasks ctx k.body (Schedule.reverse.order 2) rowsStart).length == 4
        | .error _ => false
      | [] => false
    | .error _ => false) = true := by decide +kernel

/-- The first group meets four barriers, two in each of its visits. -/
theorem rows_barriers :
    ∃ p k ctx, rowsModule.lower {} = .ok p ∧ k ∈ p.kernels ∧
      rowsDevice.context (fun _ => none) rowsDevice.global k = .ok ctx ∧
      ((Run.exec ctx k.body (Schedule.reverse.order 2)).ending rowsStart).stats.barriers = 4 ∧
        ∀ mask ∈ Run.barrierMasks ctx k.body (Schedule.reverse.order 2) rowsStart, ∀ t, t ∈ mask ↔ t < 2 := by
  have computed := rowsModule_runs
  split at computed
  · rename_i p hp
    split at computed
    · rename_i k ks hks
      split at computed
      · rename_i ctx hctx
        simp only [Bool.and_eq_true, beq_iff_eq] at computed
        obtain ⟨⟨hsize, hgroup⟩, hlength⟩ := computed
        have hk : k ∈ p.kernels := hks ▸ List.mem_cons_self
        have hstart : rowsStart.threads = Array.replicate ctx.groupSize.toInt.toNat {} := by rw [hsize]; rfl
        have reach := barriers_reach_whole_group hp rowsModule_wellScoped rowsModule_avoidsGenerated hk hctx 0
          Schedule.reverse hstart
        have first : { ctx with group := Int64.ofNat 0 } = ctx := by
          cases ctx
          cases hgroup
          rfl
        rw [first, hsize, show (2 : Int64).toInt.toNat = 2 from rfl] at reach
        obtain ⟨hcount, hmasks⟩ := reach
        exact ⟨p, k, ctx, hp, hk, hctx, by rw [hcount, hlength]; rfl, hmasks⟩
      · cases computed
    · cases computed
  · cases computed

end SegKernel
