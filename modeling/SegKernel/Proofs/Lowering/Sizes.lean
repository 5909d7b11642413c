import SegKernel.Device.Basic
import SegKernel.Proofs.Convergence.Constructors
import SegKernel.Proofs.Evaluation.Faults
import SegKernel.Proofs.Execution.Launching
import SegKernel.Proofs.Lowering.Operations

/-! Sizes on the host. What the host evaluates for a program is made of sizes of the module and of tuning
    parameters. Before any kernel runs, the host knows the bound scalars, the tuning parameters, and those
    constants that some kernel uses. -/

namespace SegKernel

/-- The module uses an operand as the size of a launch, or as an extent of an array of the host, of what an
    operator combines, or of the destination of a histogram. -/
def Module.HasSize (m : Module) (o : Operand) : Prop :=
  (∃ (name : Ident) (type : ScalarType) (shape : List Operand), m.env.arrays[name]? = some (type, shape) ∧ o ∈ shape) ∨
    ∃ op ∈ m.ops, o ∈ op.sizes

/-- The names that sizes of the module mention. -/
def Module.sizeNames (m : Module) : Common where
  scalar x := m.HasSize (.var x)
  array _ := False
  scalar_of_array _ := False.elim

namespace Program

/-- What the host evaluates: the lengths of arrays and the sizes of launches. -/
def hostExps (p : Program) : List Exp :=
  p.allocations.map (·.length) ++ p.kernels.flatMap fun k => [k.numGroups, k.groupSize]

/-- Names of `U`, and the names of tuning parameters. -/
def tuned (U : Common) (params : List TuningParam) : Common where
  scalar x := U x ∨ x ∈ params.map (·.name)
  array _ := False
  scalar_of_array _ := False.elim

/-- The host evaluates only names of `U` and tuning parameters. -/
structure Sized (U : Common) (p : Program) : Prop where
  allocations : ∀ a ∈ p.allocations, a.length.Over U
  kernels : ∀ k ∈ p.kernels, k.numGroups.Over (tuned U p.tuning) ∧ k.groupSize.Over (tuned U p.tuning)

theorem mem_addTuning {params : List TuningParam} {new : TuningParam} {x : Ident} :
    x ∈ (addTuning params [new]).map (·.name) ↔ x ∈ params.map (·.name) ∨ x = new.name := by
  show x ∈ List.map _ (if params.any (·.name == new.name) then params else params ++ [new]) ↔ _
  split
  · rename_i hany
    obtain ⟨p, hp, hname⟩ := List.any_eq_true.mp hany
    refine ⟨Or.inl, fun h => h.elim id fun hx => ?_⟩
    exact List.mem_map.mpr ⟨p, hp, (eq_of_beq hname).trans hx.symm⟩
  · rw [List.map_append, List.mem_append, List.map_singleton, List.mem_singleton]

namespace Sized
variable {U : Common} {p : Program}

theorem allocate (h : p.Sized U) {a : Allocation} (ha : a.length.Over U) :
    Sized U { p with allocations := p.allocations ++ [a] } where
  allocations := List.forall_mem_append.mpr ⟨h.allocations, List.forall_mem_singleton.mpr ha⟩
  kernels := h.kernels

theorem addTuning (h : p.Sized U) (param : TuningParam) :
    Sized U { p with tuning := Program.addTuning p.tuning [param] } where
  allocations := h.allocations
  kernels k hk := by
    have later : ∀ {x : Exp}, x.Over (tuned U p.tuning) → x.Over (tuned U (Program.addTuning p.tuning [param])) :=
      fun hx y hy => (hx y hy).imp id fun hmem => mem_addTuning.mpr (Or.inl hmem)
    exact ⟨later (h.kernels k hk).1, later (h.kernels k hk).2⟩

theorem emit (h : p.Sized U) {k : Kernel} (hcount : k.numGroups.Over (tuned U p.tuning))
    (hsize : k.groupSize.Over (tuned U p.tuning)) : Sized U { p with kernels := p.kernels ++ [k] } where
  allocations := h.allocations
  kernels := List.forall_mem_append.mpr ⟨h.kernels, List.forall_mem_singleton.mpr ⟨hcount, hsize⟩⟩

/-- All variables of what the host evaluates. -/
theorem hostExps (h : p.Sized U) : ∀ e ∈ p.hostExps, e.Over (tuned U p.tuning) := by
  refine List.forall_mem_append.mpr ⟨List.forall_mem_map.mpr fun a ha y hy => Or.inl (h.allocations a ha y hy), ?_⟩
  intro e he
  obtain ⟨k, hk, he⟩ := List.mem_flatMap.mp he
  rcases List.mem_cons.mp he with rfl | he
  · exact (h.kernels k hk).1
  · exact List.mem_singleton.mp he ▸ (h.kernels k hk).2

end Sized
end Program

/-! ### Lowering -/

namespace Lowering
open Program Exp

/-- A computation after which the host still evaluates only names of `U` and tuning parameters, with results
    in `Q`. -/
def Sizes (setting : Setting) (U : Common) {α : Type} (f : Lowering α) (Q : α → Prop) : Prop :=
  ∀ σ a σ', σ.program.Sized U → f setting σ = .ok (a, σ') → σ'.program.Sized U ∧ Q a

namespace Sizes
variable {α : Type} {setting : Setting} {U : Common} {f : Lowering α} {Q : α → Prop}

/-- A computation that leaves the program. -/
theorem of_program (h : ∀ σ a σ', f setting σ = .ok (a, σ') → σ'.program = σ.program ∧ Q a) : Sizes setting U f Q := by
  intro σ a σ' hσ hrun
  obtain ⟨hprogram, hQ⟩ := h σ a σ' hrun
  exact ⟨hprogram ▸ hσ, hQ⟩

theorem composable : Composable (Sizes setting U) where
  pure h := of_program fun σ a σ' hrun => by
    obtain ⟨rfl, rfl⟩ := pure_eq_ok.mp hrun
    exact ⟨rfl, h⟩
  bind_of hf hg σ b σ' hσ hrun := by
    obtain ⟨a, σ₁, ha, hb⟩ := bind_eq_ok.mp hrun
    obtain ⟨hσ₁, hQ⟩ := hf σ a σ₁ hσ ha
    exact hg a hQ σ₁ b σ' hσ₁ hb
  results hf hR σ a σ' hσ hrun := ⟨(hf σ a σ' hσ hrun).1, hR hrun⟩
  report _ σ a σ' _ hrun := (throw_ne_ok.mp hrun).elim
  lift f := of_program fun σ a σ' hrun => by
    obtain ⟨-, rfl⟩ := lift_eq_ok.mp hrun
    exact ⟨rfl, trivial⟩
  liftExcept _ := of_program fun σ a σ' hrun => by
    simp only [liftM, monadLift, MonadLift.monadLift] at hrun
    split at hrun
    · cases hrun
      exact ⟨rfl, trivial⟩
    · cases hrun
  read := of_program fun σ a σ' hrun => ⟨(read_eq_ok.mp hrun).2 ▸ rfl, trivial⟩
  get := of_program fun σ a σ' hrun => ⟨(get_eq_ok.mp hrun).2 ▸ rfl, trivial⟩
  markScatter := of_program fun σ a σ' hrun => by
    obtain rfl := modify_eq_ok.mp hrun
    exact ⟨rfl, trivial⟩

theorem allocate (stem : String) (type : ScalarType) {length : Exp} (h : length.Over U) :
    Sizes setting U (allocate stem type length) fun _ => True := by
  intro σ v σ' hσ hrun
  simp only [Lowering.allocate, bind_eq_ok, lift_eq_ok, modify_eq_ok, pure_eq_ok] at hrun
  obtain ⟨name, σ₁, ⟨rfl, rfl⟩, _, σ₂, rfl, -, rfl⟩ := hrun
  exact ⟨hσ.allocate h, trivial⟩

/-- A kernel whose launch has sizes that are known by then. -/
theorem program_of_emitKernel {stem : String} {numGroups groupSize : Exp} {body : Stmt} {u : Unit} {σ σ' : Session}
    (hσ : σ.program.Sized U) (hcount : numGroups.Over (tuned U σ.program.tuning))
    (hsize : groupSize.Over (tuned U σ.program.tuning))
    (hrun : emitKernel stem numGroups groupSize body setting σ = .ok (u, σ')) : σ'.program.Sized U := by
  obtain ⟨k, -, rfl, rfl, -, -, rfl⟩ := emitKernel_eq_ok hrun
  exact hσ.emit hcount hsize

/-- The size of the groups that fill an array is a tuning parameter, which is added before the kernel. -/
theorem fill (kernel : String) {n : Exp} (element : Exp → Fresh Stmt) (hn : n.Over U) :
    Sizes setting U (fill kernel n element) fun _ => True := by
  intro σ u σ' hσ hrun
  simp only [Lowering.fill, bind_eq_ok, read_eq_ok, lift_eq_ok, Lowering.addTuning, modify_eq_ok] at hrun
  obtain ⟨_, _, ⟨rfl, rfl⟩, r, _, ⟨hr, rfl⟩, _, _, rfl, body, _, ⟨rfl, rfl⟩, hrun⟩ := hrun
  obtain ⟨rfl⟩ := hr
  -- The parameter is added before the kernel whose sizes mention it.
  refine ⟨program_of_emitKernel ?_ ?_ ?_ hrun, trivial⟩
  · exact hσ.addTuning _
  · refine over_divUp (fun y hy => Or.inl (hn y hy)) (over_var.mpr (Or.inr (mem_addTuning.mpr (Or.inr rfl))))
  · exact over_var.mpr (Or.inr (mem_addTuning.mpr (Or.inr rfl)))

/-- The extents of a global array, whether it is the host's or the program's own. -/
theorem globalArray? (henv : ∀ (name : Ident) (type : ScalarType) (shape : List Operand),
    setting.env.arrays[name]? = some (type, shape) → ∀ o ∈ shape, o.toExp.Over U)
    (name : Ident) : Sizes setting U (globalArray? name) fun a? => ∀ a ∈ a?, ∀ e ∈ a.shape, e.Over U := by
  intro σ a? σ' hσ hrun
  simp only [Lowering.globalArray?, bind_eq_ok, read_eq_ok, get_eq_ok, pure_eq_ok] at hrun
  obtain ⟨_, _, ⟨rfl, rfl⟩, _, _, ⟨rfl, rfl⟩, rfl, rfl⟩ := hrun
  refine ⟨hσ, fun a ha => ?_⟩
  unfold SegKernel.globalArray? at ha
  split at ha
  · rename_i type shape harray
    cases ha
    exact List.forall_mem_map.mpr (henv name type shape harray)
  · obtain ⟨alloc, halloc, rfl⟩ := Option.map_eq_some_iff.mp ha
    exact List.forall_mem_singleton.mpr (hσ.allocations alloc (List.mem_of_find?_eq_some halloc))

theorem steps (henv : ∀ (name : Ident) (type : ScalarType) (shape : List Operand),
    setting.env.arrays[name]? = some (type, shape) → ∀ o ∈ shape, o.toExp.Over U) :
    Composable.Steps (Sizes setting U) (Exp.Over U) fun _ => True where
  toComposable := composable
  sizing := ⟨over_int, over_mul, over_apply, over_apply⟩
  globalArray? := globalArray? henv
  allocate := allocate
  fill := fill
  emitKernel _ _ _ _ hcount hsize _ _ _ _ hσ hrun :=
    ⟨program_of_emitKernel hσ (fun y hy => Or.inl (hcount y hy)) (fun y hy => Or.inl (hsize y hy)) hrun, trivial⟩

end Sizes
end Lowering

/-- What the host evaluates for a lowered module mentions sizes of the module and tuning parameters. -/
theorem Module.lower_sized {m : Module} {config : Config} {p : Program} (h : m.lower config = .ok p) :
    p.Sized m.sizeNames := by
  obtain ⟨σ, hrun, rfl⟩ := lower_eq_ok.mp h
  have named : ∀ {o : Operand}, m.HasSize o → o.toExp.Over m.sizeNames := fun {o} ho => by
    cases o with
    | const v => exact Exp.over_const v
    | var x => exact Exp.over_var.mpr ho
  have steps : Lowering.Composable.Steps (Lowering.Sizes ⟨config, m.env⟩ m.sizeNames) (Exp.Over m.sizeNames)
    fun _ => True :=
    Lowering.Sizes.steps fun name type shape harray o ho => named (Or.inl ⟨name, type, shape, harray, ho⟩)
  have ops : Lowering.Sizes ⟨config, m.env⟩ m.sizeNames (m.ops.forM Lowering.hostOp) fun _ => True :=
    steps.forM fun op hop => steps.hostOp (fun o ho => named (Or.inr ⟨op, hop, ho⟩)) (fun _ _ _ => trivial)
      (Or.inl fun _ _ _ _ _ _ hrun => (Lowering.throw_ne_ok.mp hrun).elim)
  exact (ops {} () σ ⟨by simp, by simp⟩ hrun).1

/-! ### The host -/

namespace Device

/-- The host knows the scalars that are bound, the tuning parameters, and the constants that kernels use. -/
theorem mem_hostEnv {d : Device} {p : Program} {x : Ident} :
    x ∈ d.hostEnv p ↔ x ∈ (constants p).map (·.1) ∨ x ∈ p.tuning.map (·.name) ∨ x ∈ d.scalars := by
  have fold : ∀ {α : Type} {step : Table Value → α → Table Value} {f : α → Ident},
      (∀ env a, x ∈ step env a ↔ x = f a ∨ x ∈ env) → ∀ (as : List α) (env : Table Value),
        x ∈ as.foldl step env ↔ x ∈ as.map f ∨ x ∈ env := by
    intro α step f hstep as
    induction as with
    | nil => simp
    | cons a as ih =>
      intro env
      rw [List.foldl_cons, ih, hstep, List.map_cons, List.mem_cons, or_left_comm, or_assoc]
  unfold hostEnv
  rw [fold (f := (·.1)) fun env c => ?_, fold (f := (·.name)) fun env t => ?_]
  · rw [Std.ExtTreeMap.mem_insertIfNew, Std.LawfulEqOrd.compare_eq_iff_eq, eq_comm]
  · rw [Std.ExtTreeMap.mem_insert, Std.LawfulEqOrd.compare_eq_iff_eq, eq_comm]

end Device

/-- If every size of a module that is a variable is a declared scalar or a declared constant, and some kernel
    uses each of these constants, then a host on which the declared scalars are bound knows all variables of
    what it evaluates for the program. -/
theorem Module.sizes_known {m : Module} {config : Config} {p : Program} {d : Device} (h : m.lower config = .ok p)
    (hsizes : ∀ o, m.HasSize o → m.env.isInvariant o = true) (hscalars : ∀ x ∈ m.env.scalars, x ∈ d.scalars)
    (hconstants : ∀ x, m.HasSize (.var x) → x ∈ m.env.constants → x ∉ m.env.scalars →
      x ∈ (Device.constants p).map (·.1)) :
    ∀ e ∈ p.hostExps, (∀ x ∈ e.occurrences, x ∈ d.hostEnv p) ∧
      ∀ x, e.evalInt ((d.hostEnv p)[·]?) ≠ .error (.unknownVariable x) := by
  intro e he
  have known : ∀ x ∈ e.occurrences, x ∈ d.hostEnv p := by
    intro x hx
    refine Device.mem_hostEnv.mpr ?_
    rcases (m.lower_sized h).hostExps e he x hx with hsize | htuned
    · by_cases hscalar : x ∈ m.env.scalars
      · exact Or.inr (Or.inr (hscalars x hscalar))
      · have hinvariant : m.env.scalars.contains x = true ∨ m.env.constants.contains x = true := by
          simpa [HostEnv.isInvariant] using hsizes _ hsize
        exact Or.inl (hconstants x hsize (hinvariant.resolve_left hscalar) hscalar)
    · exact Or.inr (Or.inl htuned)
  refine ⟨known, fun x hfault => ?_⟩
  cases e.evalInt_faults _ _ hfault with
  | values h => cases h
  | unbound hname hnone =>
    have hsome := Std.ExtTreeMap.mem_iff_isSome_getElem?.mp (known x hname)
    exact absurd (hnone ▸ hsome) (by simp)

/-! ### A constant as a size -/

namespace Module

/-- A map over `n` points by `P` groups, after a fill of its destination. `P` is a constant. -/
def spread (coverage : Coverage) : Module where
  env := {
    arrays := ({} : Table _).insert "ys" (.i64, [.var "n"])
    scalars := ({} : Table _).insert "n" .i64
    constants := ({} : Table _).insert "P" (.i64 2) }
  ops := [.replicate "ys" (.int 0), .seg [⟨"ys", .i64, [.var "n"]⟩] {
    kind := .map
    grid := ⟨.thread, .var "P", .int 2, coverage⟩
    space := ⟨"flat", [("i", .var "n")]⟩
    stms := []
    results := [.returns (.var "i")] }]

/-- A host that has what the module declares. -/
def spreadHost : Device where
  wave := 1
  scalars := ({} : Table _).insert "n" (.i64 4)
  global := ({} : Memory).insert "ys" (.ofValues .i64 [.i64 9, .i64 9, .i64 9, .i64 9])

variable {coverage : Coverage}

theorem spread_sizes {o : Operand} (h : (spread coverage).HasSize o) : o = .var "n" ∨ o = .var "P" ∨ o = .int 2 := by
  rcases h with ⟨name, type, shape, harray, ho⟩ | ⟨op, hop, ho⟩
  · have harray : (({} : Table (ScalarType × List Operand)).insert "ys" (.i64, [.var "n"]))[name]? =
      some (type, shape) :=
      harray
    rw [Table.getElem?_insert] at harray
    split at harray
    · cases harray
      exact Or.inl (List.mem_singleton.mp ho)
    · simp at harray
  · rcases List.mem_cons.mp hop with rfl | hop
    · cases ho
    · obtain rfl := List.mem_singleton.mp hop
      simpa [HostOp.sizes, Segmented.sizes, Segmented.ops, BodyStm.allOps, SegKind.sizes] using Or.inr ho

theorem spread_invariant (o : Operand) (h : (spread coverage).HasSize o) :
    (spread coverage).env.isInvariant o = true := by
  rcases spread_sizes h with rfl | rfl | rfl <;> simp [spread, HostEnv.isInvariant, Operand.int]

theorem spread_bound : ∀ x ∈ (spread coverage).env.scalars, x ∈ spreadHost.scalars := by
  simp [spread, spreadHost]

/-- Groups that visit several groups of points use `P` to find them, so the host knows `P`. -/
theorem spread_virtualized_known : ∃ p, (spread .virtualize).lower { sizes := { default := 4 } } = .ok p ∧
    (∀ e ∈ p.hostExps, (∀ x ∈ e.occurrences, x ∈ spreadHost.hostEnv p) ∧
      ∀ x, e.evalInt ((spreadHost.hostEnv p)[·]?) ≠ .error (.unknownVariable x)) ∧
    p.hostExps.map (fun e => (e.evalInt ((spreadHost.hostEnv p)[·]?)).toOption) = [some 1, some 4, some 2, some 2] := by
  obtain ⟨p, hp, hP, hvalues⟩ : ∃ p ∈ ((spread .virtualize).lower { sizes := { default := 4 } }).toOption,
      "P" ∈ (Device.constants p).map (·.1) ∧
      p.hostExps.map (fun e => (e.evalInt ((spreadHost.hostEnv p)[·]?)).toOption) =
        [some 1, some 4, some 2, some 2] := by
    decide +kernel
  refine ⟨p, ok_of_toOption hp, sizes_known (ok_of_toOption hp) spread_invariant spread_bound fun x hx _ hn =>
    ?_, hvalues⟩
  rcases spread_sizes hx with h | h | h
  · cases h
    exact absurd hn (by simp [spread])
  · cases h
    exact hP
  · cases h

/-- No kernel uses `P` where each group visits the points of its own number, and the host does not know how
    many groups to launch. -/
theorem spread_direct_unknown :
    let m := spread .direct
    (∀ o, m.HasSize o → m.env.isInvariant o = true) ∧ (∀ x ∈ m.env.scalars, x ∈ spreadHost.scalars) ∧
      (∀ x ∈ m.env.arrays, x ∈ spreadHost.global) ∧ ∃ p, m.lower { sizes := { default := 4 } } = .ok p ∧
        (∃ k ∈ p.kernels, k.numGroups.evalInt ((spreadHost.hostEnv p)[·]?) = .error (.unknownVariable "P")) ∧
        (spreadHost.run p).1 = .error (.unknownVariable "P") := by
  intro m
  obtain ⟨p, hp, hk, hrun⟩ : ∃ p ∈ (m.lower { sizes := { default := 4 } }).toOption,
      (∃ k ∈ p.kernels, k.numGroups.evalInt ((spreadHost.hostEnv p)[·]?) = .error (.unknownVariable "P")) ∧
      (spreadHost.run p).1 = .error (.unknownVariable "P") := by decide +kernel
  exact ⟨spread_invariant, spread_bound, by simp [m, spread, spreadHost], p, ok_of_toOption hp, hk, hrun⟩

end Module
end SegKernel
