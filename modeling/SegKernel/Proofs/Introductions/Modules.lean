import SegKernel.Proofs.Execution.Threads
import SegKernel.Proofs.Lowering.Careful
import SegKernel.Proofs.Introductions.Nested

/-! The names that a program introduces. Those that no operation of the module binds are new, and each of
    them is introduced once. -/

namespace SegKernel
open Tally Lowering
variable {t : Tally} {setting : Setting}

/-! ### Kernels -/

namespace Lowering

/-- A kernel brings in its name, and what its code declares. -/
theorem emitKernel_costs {stem : String} (hstem : stem ∈ kernelStems) (numGroups groupSize : Exp) (body : Stmt) :
    Costs t setting (emitKernel stem numGroups groupSize body) (t.of body) fun _ => 0 := by
  intro σ u σ' hu
  obtain ⟨k, hname, -, -, hbody, -, rfl⟩ := emitKernel_eq_ok hu
  have declared := sum_perm (t := t) (Stmt.declared_hoist hbody)
  have named : t.weight k.name ≤ t.within σ.names (σ.names + 1) := hname ▸ weight_new (by simp [hstem]) σ.names
  refine ⟨Nat.le_succ _, ?_⟩
  simp only [Program.introduced, List.flatMap_append, List.flatMap_cons, List.flatMap_nil, List.append_nil, sum_append,
    sum_cons, of, declared]
  omega

/-- A kernel whose code declares only new names. -/
theorem emitKernel_costs_of_le {stem : String} (hstem : stem ∈ kernelStems) (numGroups groupSize : Exp) {body : Stmt}
    {given : Nat} (h : t.of body ≤ given) :
    Costs t setting (emitKernel stem numGroups groupSize body) given fun _ => 0 :=
  (emitKernel_costs hstem numGroups groupSize body).mono h

/-! ### Maps -/

theorem mapByThreads_silent (pattern : List PatElem) {op : SegOp} (h : t.Ignores op.allNames) :
    Silent t setting (mapByThreads pattern op) := by
  refine (Costs.lift (Launch.start_costs _ _)).bind fun start => ?_
  refine Costs.bindWith (t.of start.2) (.lift (Launch.coverByThreads_costs _ _ _)) (fun nest => ?_) (by
    rw [h.space.sum]
    omega)
  refine (BodyStm.threadBody_costs _ h).bind fun body => (body.2.threadResults_costs _ _).bind fun results => ?_
  refine emitKernel_costs_of_le (by decide) _ _ ?_
  simp only [of_block, ofAll_cons, ofAll_nil]
  grw [of_wrap_le]
  simp only [of_block, ofAll_cons, ofAll_nil]
  omega

theorem mapByGroups_silent (pattern : List PatElem) {op : SegOp} (h : t.Ignores op.allNames) :
    Silent t setting (mapByGroups pattern op) := by
  refine (Costs.lift (Launch.start_costs _ _)).bind fun start => Silent.read.bind fun s => ?_
  refine (Costs.lift (Launch.precompute_costs _ _ _)).bind fun precomputed => ?_
  refine Costs.bindWith (t.of start.2 + t.of precomputed.2) (.lift (Launch.coverByGroups_costs _ _ _))
    (fun nest => ?_) (by
    rw [h.space.sum]
    omega)
  refine (BodyStm.groupBody_costs _ h).bind fun body => (body.2.groupResults_costs _ _).bind fun results => ?_
  refine emitKernel_costs_of_le (by decide) _ _ ?_
  simp only [of_block, ofAll_cons, ofAll_nil]
  grw [of_wrap_le]
  simp only [of_block, ofAll_cons, ofAll_nil]
  omega

/-! ### Fills -/

theorem fill_silent {kernel : String} (hkernel : kernel ∈ kernelStems) (n : Exp) {element : Exp → Fresh Stmt}
    (h : ∀ i, Fresh.Costs t (element i) 0 t.of) : Silent t setting (fill kernel n element) := by
  refine Silent.read.bind fun s => (Costs.lift (Launch.forElements_costs _ _ _)).bind fun r => ?_
  obtain ⟨launch, entry, param⟩ := r
  refine Silent.addTuning.bind fun _ => (Costs.lift (h _)).bind fun body => ?_
  refine emitKernel_costs_of_le hkernel _ _ ?_
  simp only [of_block, ofAll_cons, ofAll_nil]
  grw [of_when_le]
  omega

theorem fillValue_silent (view : View) (length value : Exp) : Silent t setting (fillValue view length value) :=
  fill_silent (by decide) _ fun _ => .pure (Nat.le_of_eq of_write)

theorem replicate_silent (dest : Ident) (value : Operand) : Silent t setting (replicate dest value) :=
  Silent.globalArray.bind fun _ => fillValue_silent _ _ _

theorem iota_silent (dest : Ident) (start step : Operand) : Silent t setting (iota dest start step) :=
  Silent.globalArray.bind fun _ => fill_silent (by decide) _ fun _ => .pure (Nat.le_of_eq of_write)

theorem copy_silent (dest source : Ident) : Silent t setting (copy dest source) := by
  refine Silent.globalArray.bind fun target => Silent.globalArray.bind fun origin => Silent.check.bind fun _ => ?_
  have rest : Silent t setting (fill "copy" target.length fun i => do
      let v ← fresh "elem"
      return .block [.declare v origin.view.type false, .read v origin.view i, .write target.view i (.var v)]) := by
    refine fill_silent (by decide) _ fun i => (Fresh.Costs.fresh (by decide)).bind fun v => .pure ?_
    simp only [of_block, ofAll_cons, ofAll_nil, of_declare, of_read, of_write]
    omega
  dsimp only
  split
  · exact Silent.check.bind fun _ => rest
  · exact rest

/-! ### Histograms -/

theorem globalLocks_silent (hs : List (Histogram × AtomicUpdate)) : Silent t setting (globalLocks hs) := by
  unfold globalLocks
  split
  · exact .pure
  · exact Silent.read.bind fun s => (Silent.allocate (by decide)).bind fun locks => Silent.pure

theorem seedGlobal_silent (p : PatElem) (initial : Ident) (span : Option Span) :
    Silent t setting (seedGlobal p initial span) := by
  unfold seedGlobal
  split
  · exact (copy_silent _ _).bind fun _ => Silent.globalArray.bind fun _ => Silent.pure
  · exact Silent.globalArray.bind fun _ => Silent.pure

theorem seedGlobals_silent (span : Option Span) : ∀ (hs : List Histogram) (pattern : List PatElem),
    Silent t setting (seedGlobals span hs pattern)
  | [], _ => Silent.pure
  | _ :: hs, _ =>
    Silent.check.bind fun _ => Silent.inRange.bind fun _ =>
      (Silent.mapM fun r _ => seedGlobal_silent r.1 r.2 span).bind fun _ =>
        (seedGlobals_silent span hs _).bind fun _ => Silent.pure

theorem histogramValue_silent (span : Option Span) (result : BodyResult) :
    Silent t setting (histogramValue span result) :=
  (result.plain_silent _ _).bind fun _ => Silent.pure

theorem updateByThreads_silent (pattern : List PatElem) {op : SegOp} (hs : List Histogram) (h : t.Ignores op.allNames)
    (locking : Option Locking) (updates : List AtomicUpdate) (dests : List (List View)) :
    Silent t setting (updateByThreads pattern op hs locking updates dests) := by
  refine (Costs.lift (Launch.start_costs _ _)).bind fun start => ?_
  refine Costs.bindWith (t.of start.2) (.lift (Launch.coverByThreads_costs _ _ _)) (fun nest => ?_) (by
    rw [h.space.sum]
    omega)
  refine (BodyStm.threadBody_costs _ h).bind fun body => ?_
  refine (Histogram.updateCode_costs locking _ _ (histogramValue_silent _) _ _ _).bind fun contributions => ?_
  refine (Histogram.mappedResults_silent hs pattern _).bind fun results => ?_
  refine (body.2.threadResults_costs _ _).bind fun mapped => emitKernel_costs_of_le (by decide) _ _ ?_
  simp only [of_block, ofAll_cons, ofAll_nil]
  grw [of_wrap_le]
  simp only [of_block, ofAll_append, ofAll_cons, ofAll_nil]
  omega

theorem histogramByThreads_silent (pattern : List PatElem) {op : SegOp} (hs : List Histogram)
    (h : t.Ignores op.allNames) :
    Silent t setting (histogramByThreads pattern op hs) := by
  have values : ∀ results : List BodyResult, Silent t setting (results.mapM (histogramValue op.span)) := fun _ =>
    Silent.mapM fun r _ => histogramValue_silent op.span r
  refine Silent.check.bind fun _ => Silent.inRange.bind fun _ => (values _).bind fun _ => ?_
  refine Silent.inRange.bind fun _ => (values _).bind fun _ => Silent.read.bind fun s => ?_
  refine (globalLocks_silent _).bind fun locking => (seedGlobals_silent _ _ _).bind fun dests => ?_
  have update : Silent t setting (updateByThreads pattern op hs locking
      (hs.map fun h => h.lambda.atomicUpdate s.config.atomics) dests) := updateByThreads_silent pattern hs h _ _ _
  cases locking with
  | some locking => exact (fillValue_silent _ _ _).bind fun _ => update
  | none => exact Silent.bind (f := pure ()) Silent.pure fun _ => update

end Lowering

/-! ### Reductions -/

namespace Accumulator

theorem ofOp_costs (op : Combiner) : Fresh.Costs t (ofOp op) 0 fun a => t.sum a.vars :=
  (Fresh.Costs.freshFor (by decide) _).bind fun vars => .pure (Nat.le_of_eq (Nat.zero_add _).symm)

theorem of_declare_le (a : Accumulator) : t.of a.declare ≤ t.sum a.vars := by
  rw [declare, of_block]
  exact Nat.le_trans (ofAll_map_le (·.1.1) _ fun _ _ => Nat.le_of_eq of_declareInit) (sum_map_fst_zip_zip_le _ _ _)

theorem ofAll_declare_le : ∀ accs : List Accumulator, t.ofAll (accs.map declare) ≤ (accs.map fun a => t.sum a.vars).sum
  | [] => Nat.le_refl _
  | a :: accs => by
    rw [List.map_cons, List.map_cons, ofAll_cons, List.sum_cons]
    exact Nat.add_le_add (of_declare_le a) (ofAll_declare_le accs)

theorem foldAll_costs : ∀ (accs : List Accumulator) (values : List Exp), Costs t setting (foldAll accs values) 0 t.ofAll
  | [], _ => .pure (Nat.le_refl _)
  | a :: accs, values => by
    refine Silent.inRange.bind fun _ => (Costs.lift (a.op.lambda.assign_costs _ _ _)).bind fun code => ?_
    refine (foldAll_costs accs _).bind fun rest => .pure ?_
    rw [ofAll_cons]
    omega

theorem combineOne_costs (launch : Launch) (a : Accumulator) (dests : List View) (index : Exp) :
    Fresh.Costs t (combineOne launch a dests index) 0 t.of := by
  refine (Fresh.Costs.freshFor (by decide) _).bind fun names => (Collective.reduce_costs _ _).bind fun reduction => ?_
  refine (Fresh.Costs.mapM (c := t.ofAll) fun r _ => ?_).bind fun store => .pure ?_
  · refine (Fresh.Costs.fresh (by decide)).bind fun v => .pure ?_
    simp only [ofAll_cons, ofAll_nil, of_declare, of_read, of_write]
    omega
  · simp only [of_block, ofAll_append, ofAll_cons, ofAll_nil, of_barrier]
    grw [of_when_le, ofAll_flatMap_le (·.1.array) _ fun _ _ => by simp, sum_map_zip_le View.array]
    simp only [of_block, ofAll_flatten, List.map_map, Function.comp_def]
    grw [sum_map_fst_zip_le]
    omega

theorem combineAll_costs (launch : Launch) (index : Exp) : ∀ (accs : List Accumulator) (dests : List View),
    Fresh.Costs t (combineAll launch index accs dests) 0 t.ofAll
  | [], _ => .pure (Nat.le_refl _)
  | a :: accs, dests => by
    refine (combineOne_costs launch a dests index).bind fun code =>
      (combineAll_costs launch index accs _).bind fun rest =>
      .pure ?_
    rw [ofAll_cons]
    omega

end Accumulator

namespace Lowering

theorem reductionParts_silent (pattern : List PatElem) (op : SegOp) (ops : List Combiner) :
    Silent t setting (reductionParts pattern op ops) := by
  -- All but the limitations is the same on each path.
  have rest : Silent t setting (do
      let components := ops.foldl (fun n op => n + op.lambda.arity) 0
      check (components ≤ pattern.length ∧ op.results.length = pattern.length)
        (.reductionCounts op.results.length pattern.length components) op.span
      inRange components op.results.length
      let contributions ← (op.results.take components).mapM fun result => do
        return (← result.plain .reductionValue op.span).toExp
      inRange components pattern.length
      let dests ← (pattern.take components).mapM fun p => do
        return (← globalArray p.name "segred" op.span).view
      return ({ dests, contributions, mapped := (pattern.zip op.results).drop components } : ReductionParts)) := by
    refine Silent.check.bind fun _ => Silent.inRange.bind fun _ =>
      (Silent.mapM fun r _ => ?_).bind fun contributions => ?_
    · exact (r.plain_silent _ _).bind fun _ => Silent.pure
    · exact Silent.inRange.bind fun _ => (Silent.mapM fun p _ => Silent.globalArray.bind fun _ => Silent.pure).bind
        fun dests => Silent.pure
  have limited {α : Type} {cause : Limitation} {span : Option Span} : Silent t setting
    (limitation cause span : Lowering α) :=
    Costs.limitation
  unfold reductionParts
  dsimp only
  split
  · refine limited.bind fun _ => ?_
    split
    · exact limited.bind fun _ => rest
    · exact rest
  · split
    · exact limited.bind fun _ => rest
    · exact rest

theorem reducePoints_silent {op : SegOp} (ops : List Combiner) (parts : ReductionParts) (partials : List View)
    (h : t.Ignores op.allNames) : Silent t setting (reducePoints op ops parts partials) := by
  refine (Costs.lift (Launch.start_costs _ _)).bind fun start => ?_
  refine (Costs.mapM (c := fun a : Accumulator => t.sum a.vars) fun op _ => .lift (Accumulator.ofOp_costs op)).bind
    fun accs => Silent.inRange.bind fun _ => ?_
  refine (Costs.lift (.fresh (by decide))).bind fun perThread => (Costs.lift (.fresh (by decide))).bind fun k => ?_
  refine (BodyStm.threadBody_costs _ h).bind fun body => (body.2.threadResults_costs _ _).bind fun mapped => ?_
  refine (Accumulator.foldAll_costs _ _).bind fun fold =>
    (Costs.lift (Accumulator.combineAll_costs _ _ _ _)).bind fun store => ?_
  refine emitKernel_costs_of_le (by decide) _ _ ?_
  have declared := Accumulator.ofAll_declare_le (t := t) accs
  have indices : t.ofAll (op.space.indices.map fun i => Stmt.declareInit i .i64 (.var op.space.flat)) ≤
    t.sum op.space.indices := by
    simpa using ofAll_map_le (t := t) id op.space.indices fun i _ => Nat.le_of_eq of_declareInit
  have names := h.space.sum
  rw [sum_space_names] at names
  simp only [of_block, of_comment, of_loop, ofAll_append, ofAll_cons, ofAll_nil, of_declareInit]
  grw [of_when_le]
  simp only [of_block, ofAll_append, ofAll_cons, ofAll_nil, of_declareInit]
  omega

theorem reducePartials_silent (op : SegOp) (ops : List Combiner) (partials dests : List View) :
    Silent t setting (reducePartials op ops partials dests) := by
  refine (Costs.lift (Launch.start_costs _ _)).bind fun start => ?_
  refine (Costs.mapM (c := fun a : Accumulator => t.sum a.vars) fun op _ => .lift (Accumulator.ofOp_costs op)).bind
    fun accs => ?_
  refine (Costs.lift (.fresh (by decide))).bind fun perThread => (Costs.lift (.fresh (by decide))).bind fun k => ?_
  refine (Costs.lift (.freshFor (by decide) _)).bind fun names => (Accumulator.foldAll_costs _ _).bind fun fold => ?_
  refine (Costs.lift (Accumulator.combineAll_costs _ _ _ _)).bind fun store => emitKernel_costs_of_le (by decide) _ _ ?_
  have declared := Accumulator.ofAll_declare_le (t := t) accs
  simp only [of_block, of_comment, of_loop, ofAll_append, ofAll_cons, ofAll_nil, of_declareInit]
  grw [of_when_le]
  simp only [of_block, ofAll_append]
  grw [ofAll_flatMap_le (·.2) _ fun _ _ => by simp, sum_map_snd_zip_le]
  omega

theorem reduceByThreads_silent (pattern : List PatElem) {op : SegOp} (ops : List Combiner) (h : t.Ignores op.allNames) :
    Silent t setting (reduceByThreads pattern op ops) :=
  (reductionParts_silent pattern op ops).bind fun parts => (Silent.mapM fun _ _ => Silent.allocate (by decide)).bind
    fun partials => (reducePoints_silent ops parts partials h).bind fun _ =>
      reducePartials_silent op ops partials parts.dests

end Lowering

/-! ### Modules -/

/-- The names that a host operation binds, with those of the arrays that it reads element by element. -/
def HostOp.bound : HostOp → List Ident
  | .seg _ op => op.allNames
  | _ => []

theorem Lowering.hostOp_silent {op : HostOp} (h : t.Ignores op.bound) : Silent t setting (hostOp op) := by
  cases op with
  | seg pattern op =>
    change Silent t setting (segmented pattern op)
    unfold segmented
    split
    · exact mapByThreads_silent pattern h
    · exact mapByGroups_silent pattern h
    · exact reduceByThreads_silent pattern _ h
    · exact histogramByThreads_silent pattern _ h
    · exact .limitation
    · exact .defect
  | replicate dest value => exact replicate_silent dest value
  | iota dest start step => exact iota_silent dest start step
  | copy dest source => exact copy_silent dest source

theorem Lowering.hostOps_silent : ∀ {ops : List HostOp}, (∀ op ∈ ops, t.Ignores op.bound) →
    Silent t setting (ops.forM hostOp)
  | [], _ => Silent.pure
  | op :: _, h => (hostOp_silent (h op List.mem_cons_self)).bind fun _ =>
    hostOps_silent fun op' h' => h op' (List.mem_cons_of_mem op h')

namespace Module
variable {config : Config} {m : Module} {p : Program}

/-- The names that a program introduces count at most one in all, where those that the module binds are
    ignored. -/
theorem sum_introduced_le (h : m.lower config = .ok p) (hm : ∀ op ∈ m.ops, t.Ignores op.bound) :
    t.sum p.introduced ≤ 1 := by
  obtain ⟨σ, hσ, rfl⟩ := lower_eq_ok.mp h
  obtain ⟨-, hsum⟩ := hostOps_silent (t := t) hm _ _ _ hσ
  have one := within_le_one (t := t) 0 σ.names
  have none : t.sum (Program.introduced {}) = 0 := rfl
  change 0 + t.sum σ.program.introduced ≤ 0 + t.sum (Program.introduced {}) + t.within 0 σ.names at hsum
  omega

/-- The names that the operations of a module bind. -/
def Binds (m : Module) (x : Ident) : Prop := ∃ op ∈ m.ops, x ∈ op.bound

open Classical in
/-- Counts the names that the module does not bind: a new name of one number counts one, and a name that
    is not new counts two. -/
noncomputable def strangers (m : Module) (k : Nat) : Tally where
  number := k
  weight x :=
    if m.Binds x then 0
    else if ∃ stem ∈ uniformStems ++ ownStems ++ arrayStems ++ kernelStems, x = numbered stem k then 1
    else if Generated x then 0 else 2
  new stem hstem n := by
    split
    · exact Nat.zero_le _
    split
    · rename_i h
      obtain ⟨stem', -, e⟩ := h
      rw [if_pos (numbered_inj.mp e).2]
    split
    · exact Nat.zero_le _
    · rename_i h
      exact absurd ⟨stem, hstem, n, rfl⟩ h

theorem strangers_ignores (k : Nat) : ∀ op ∈ m.ops, (m.strangers k).Ignores op.bound := fun op hop x hx => by
  simp only [strangers]
  rw [if_pos ⟨op, hop, hx⟩]

/-- Whatever the module, each name that its program introduces is bound by the module, or it is new and
    introduced once. -/
theorem introduced_once (h : m.lower config = .ok p) {x : Ident} (hx : x ∈ p.introduced) :
    m.Binds x ∨ Generated x ∧ p.introduced.count x = 1 := by
  refine (Classical.em (m.Binds x)).imp id fun hbinds => ?_
  have occurs : 0 < p.introduced.count x := List.count_pos_iff.mpr hx
  have bound : ∀ k, p.introduced.count x * (m.strangers k).weight x ≤ 1 := fun k =>
    Nat.le_trans (count_mul_le x _) (sum_introduced_le h (strangers_ignores k))
  have generated : Generated x := by
    by_contra hnew
    have two : (m.strangers 0).weight x = 2 := by
      simp only [strangers]
      rw [if_neg hbinds, if_neg fun ⟨stem, hstem, e⟩ => hnew ⟨stem, hstem, 0, e⟩, if_neg hnew]
    have := bound 0
    rw [two] at this
    omega
  obtain ⟨stem, hstem, k, e⟩ := generated
  have one : (m.strangers k).weight x = 1 := by
    simp only [strangers]
    rw [if_neg hbinds, if_pos ⟨stem, hstem, e⟩]
  have := bound k
  rw [one] at this
  exact ⟨⟨stem, hstem, k, e⟩, by omega⟩

/-! ### Modules that use no generated name -/

end Module

/-- The names that occur in a host operation: those of patterns and arrays, and those that operations bind. -/
def HostOp.names : HostOp → List Ident
  | .seg pattern op => pattern.map (·.name) ++ op.allNames
  | .replicate dest _ => [dest]
  | .iota dest _ _ => [dest]
  | .copy dest source => [dest, source]

theorem HostOp.bound_subset_names (op : HostOp) : op.bound ⊆ op.names := by
  cases op with
  | seg pattern op => exact List.subset_append_right _ _
  | _ => exact List.nil_subset _

namespace Module
variable {config : Config} {m : Module} {p : Program}

/-- The names that occur in a module. -/
def Names (m : Module) (x : Ident) : Prop := m.env.HasName x ∨ ∃ op ∈ m.ops, x ∈ op.names

theorem Binds.names {x : Ident} (h : m.Binds x) : m.Names x := by
  obtain ⟨op, hop, hx⟩ := h
  exact Or.inr ⟨op, hop, op.bound_subset_names hx⟩

/-- Where no name of the module has the form of a new name, the names that lowering introduces on its own are
    pairwise distinct, and none of them is a name of the module. -/
theorem introduced_apart (hm : ∀ x, m.Names x → ¬Generated x) (h : m.lower config = .ok p) :
    ∀ x ∈ p.introduced, m.Binds x ∧ ¬Generated x ∨ Generated x ∧ ¬m.Names x ∧ p.introduced.count x = 1 := by
  intro x hx
  rcases introduced_once h hx with hbinds | ⟨hnew, honce⟩
  · exact Or.inl ⟨hbinds, hm x hbinds.names⟩
  · exact Or.inr ⟨hnew, fun hname => hm x hname hnew, honce⟩

/-- Each of four threads stores twice its index. -/
def doubled : Module where
  env := { arrays := ({} : Table (ScalarType × List Operand)).insert "ys" (.i64, [.int 4]) }
  ops := [.seg [⟨"ys", .i64, [.int 4]⟩] {
    kind := .map
    grid := ⟨.thread, .int 1, .int 4, .direct⟩
    space := ⟨"flat", [("i", .int 4)]⟩
    stms := [.compute "y" .i64 (.binary .add (.var "i") (.var "i"))]
    results := [.returns (.var "y")] }]

theorem doubled_names {x : Ident} (h : doubled.Names x) : x ∈ ["ys", "flat", "i", "y"] := by
  rcases h with h | ⟨op, hop, hx⟩
  · obtain rfl := HostEnv.eq_of_hasName rfl h
    exact List.mem_cons_self
  · obtain rfl := List.mem_singleton.mp hop
    exact hx

/-- Five names are new. -/
theorem doubled_introduced : ∃ p, doubled.lower {} = .ok p ∧
    p.introduced = ["segmap_4", "global_tid_0", "local_tid_1", "group_id_2", "wave_size_3", "flat", "i", "y"] ∧
    ∀ x ∈ p.introduced,
      doubled.Binds x ∧ ¬Generated x ∨ Generated x ∧ ¬doubled.Names x ∧ p.introduced.count x = 1 := by
  obtain ⟨p, hp, hnames⟩ : ∃ p ∈ (doubled.lower {}).toOption,
      p.introduced = ["segmap_4", "global_tid_0", "local_tid_1", "group_id_2", "wave_size_3", "flat", "i", "y"] := by
    decide +kernel
  have plain : ∀ x ∈ ["ys", "flat", "i", "y"], ¬Generated x := fun x hx => not_generated (by revert x; decide)
  exact ⟨p, ok_of_toOption hp, hnames, introduced_apart (fun x hx => plain x (doubled_names hx)) (ok_of_toOption hp)⟩

/-- Each of four threads is to store the sum of a number from the host and its index. The number has the
    name that lowering takes first. -/
def shadowed : Module where
  env := {
    arrays := ({} : Table (ScalarType × List Operand)).insert "ys" (.i64, [.int 4])
    scalars := ({} : Table ScalarType).insert "global_tid_0" .i64 }
  ops := [.seg [⟨"ys", .i64, [.int 4]⟩] {
    kind := .map
    grid := ⟨.thread, .int 1, .int 4, .direct⟩
    space := ⟨"flat", [("i", .int 4)]⟩
    stms := [.compute "y" .i64 (.binary .add (.var "global_tid_0") (.var "i"))]
    results := [.returns (.var "y")] }]

/-- The kernel declares the name for the index of the thread, and it takes no number from the host. -/
theorem shadowed_taken : ∃ p, shadowed.lower {} = .ok p ∧ shadowed.Names "global_tid_0" ∧
    ¬shadowed.Binds "global_tid_0" ∧ "global_tid_0" ∈ p.introduced ∧
    p.kernels.map (·.captures) = [[.memory "ys"]] := by
  obtain ⟨p, hp, htaken, hcaptures⟩ : ∃ p ∈ (shadowed.lower {}).toOption, "global_tid_0" ∈ p.introduced ∧
      p.kernels.map (·.captures) = [[.memory "ys"]] := by decide +kernel
  have host : shadowed.Names "global_tid_0" := Or.inl (Or.inl (by decide +kernel))
  refine ⟨p, ok_of_toOption hp, host, fun ⟨op, hop, hx⟩ => ?_, htaken, hcaptures⟩
  obtain rfl := List.mem_singleton.mp hop
  revert hx
  decide

end Module
end SegKernel
