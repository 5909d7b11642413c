import Mathlib.Algebra.GroupWithZero.Nat
import Mathlib.Data.List.Forall2
import SegKernel.Lowering.Program
import SegKernel.Proofs.Lowering.Composing

/-! Properties that go from the steps of lowering to whole operations. If the steps that add to the program
    have a property for sizes in `A`, then the lowering of each operation has it whose sizes are in `A`. -/

namespace SegKernel

/-! ### Sizes -/

/-- The extents of what the operators combine, and of the destinations of histograms. -/
def SegKind.sizes : SegKind → List Operand
  | map => []
  | scan ops | reduce ops => ops.flatMap (·.shape)
  | histogram hs => hs.flatMap (·.destShape)

/-- The sizes of a launch, and the extents that belong to the operation and to all operations in it. -/
def Segmented.sizes (op : SegOp) : List Operand :=
  [op.grid.numGroups, op.grid.groupSize] ++ op.ops.flatMap (·.kind.sizes)

def HostOp.sizes : HostOp → List Operand
  | seg _ op => op.sizes
  | replicate .. | iota .. | copy .. => []

theorem Segmented.ops_eq (op : SegOp) : op.ops = op :: BodyStm.allOps op.stms := by
  cases op
  rfl

theorem BodyStm.mem_allOps {pattern : List PatElem} {op : SegOp} : ∀ {stms : List BodyStm},
    BodyStm.nested pattern op ∈ stms → op ∈ BodyStm.allOps stms
  | stm :: stms, h => by
    rcases List.mem_cons.mp h with rfl | h
    · refine List.mem_append_left _ ?_
      rw [BodyStm.ops, Segmented.ops_eq]
      exact List.mem_cons_self
    · exact List.mem_append_right _ (mem_allOps h)

namespace Segmented
variable (op : SegOp) {o : Operand}

theorem numGroups_mem : op.grid.numGroups ∈ op.sizes := List.mem_cons_self

theorem groupSize_mem : op.grid.groupSize ∈ op.sizes := List.mem_cons_of_mem _ List.mem_cons_self

theorem kind_sizes (h : o ∈ op.kind.sizes) : o ∈ op.sizes :=
  List.mem_append_right _ (List.mem_flatMap.mpr ⟨op, op.ops_eq ▸ List.mem_cons_self, h⟩)

theorem nested_sizes {pattern : List PatElem} {inner : SegOp} (h : BodyStm.nested pattern inner ∈ op.stms)
    (ho : o ∈ inner.kind.sizes) : o ∈ op.sizes :=
  List.mem_append_right _ (List.mem_flatMap.mpr ⟨inner, op.ops_eq ▸ List.mem_cons_of_mem _ (BodyStm.mem_allOps h), ho⟩)

end Segmented

/-- Expressions that stay in `A` when lowering makes the sizes of arrays from them. -/
structure Exp.Sizing (A : Exp → Prop) : Prop where
  int : ∀ n, A (.int n)
  mul : ∀ {x y : Exp}, A x → A y → A (x * y)
  maximum : ∀ {x y : Exp}, A x → A y → A (x.maximum y)
  minimum : ∀ {x y : Exp}, A x → A y → A (x.minimum y)

namespace Exp.Sizing
variable {A : Exp → Prop} (hA : Sizing A)
include hA

theorem product {factors : List Exp} (h : ∀ y ∈ factors, A y) : A (.product factors) := by
  have fold : ∀ {x : Exp}, A x → A (factors.foldl (· * ·) x) := by
    induction factors with
    | nil => exact id
    | cons y ys ih =>
      exact fun hx => ih (fun z hz => h z (List.mem_cons_of_mem y hz)) (hA.mul hx (h y List.mem_cons_self))
  exact fold (hA.int 1)

theorem foldl_maximum : ∀ {xs : List Exp} {x : Exp}, (∀ y ∈ x :: xs, A y) → A (xs.foldl Exp.maximum x)
  | [], _, h => h _ List.mem_cons_self
  | y :: ys, x, h => by
    obtain ⟨hx, hy, hys⟩ : A x ∧ A y ∧ ∀ z ∈ ys, A z := by simpa using h
    show A (ys.foldl Exp.maximum (x.maximum y))
    exact foldl_maximum (List.forall_mem_cons.mpr ⟨hA.maximum hx hy, hys⟩)

theorem lanes {op : Combiner} (h : ∀ o ∈ op.shape, A o.toExp) : A op.lanes := hA.product (List.forall_mem_map.mpr h)

end Exp.Sizing

namespace Lowering

/-- The steps that add to the program have the property too, where the host gets sizes in `A`, and those of the groups
    of an operation are also in `B`. -/
structure Composable.Steps (P : {α : Type} → Lowering α → (α → Prop) → Prop) (A B : Exp → Prop) : Prop
    extends Composable P where
  sizing : Exp.Sizing A
  globalArray? : ∀ name, P (globalArray? name) fun a? => ∀ a ∈ a?, ∀ e ∈ a.shape, A e
  allocate : ∀ stem type {length : Exp}, A length → P (allocate stem type length) fun _ => True
  fill : ∀ kernel {n : Exp} element, A n → P (fill kernel n element) fun _ => True
  emitKernel : ∀ stem {numGroups groupSize : Exp} body, A numGroups → A groupSize → B groupSize →
    P (emitKernel stem numGroups groupSize body) fun _ => True

namespace Composable.Steps
variable {P : {α : Type} → Lowering α → (α → Prop) → Prop} {A B : Exp → Prop} (h : Composable.Steps P A B)
include h

theorem globalArray (name : Ident) (place : String) (span : Option Span) :
    P (Lowering.globalArray name place span) fun a => A a.length :=
  h.bind_of (h.globalArray? name) fun _ ha => h.results (h.require _ _ _) fun hrun =>
    h.sizing.product (ha _ (require_eq_ok.mp hrun).1)

section
open Nested

/-! Operators on arrays have rows for all threads of the launch. -/

variable {c : Context} {op : Combiner} (hthreads : A c.launch.numThreads) (hop : ∀ o ∈ op.shape, A o.toExp)
include hthreads hop

theorem scratch (regions : Int64) : P (c.scratch op regions) fun _ => True := by
  refine h.bind (h.mapM fun _ _ => h.allocate _ _ ?_) fun _ => h.done
  exact h.sizing.mul (h.sizing.int regions) (h.sizing.mul hthreads (h.sizing.lanes hop))

end

open Nested in
/-- The scope after a nested operation is of the same launch. -/
theorem nestedCode {scope : BodyScope} {pattern : List PatElem} {op : SegOp} (hthreads : A scope.launch.numThreads)
    (hop : ∀ o ∈ op.kind.sizes, A o.toExp) : P (Nested.code scope pattern op) (·.2.launch = scope.launch) := by
  have hthreads : A (Context.launch ⟨scope.addArrays (patternArrays pattern), op⟩).numThreads := hthreads
  refine h.toComposable.nestedCode fun ops hkind combiner hcombiner regions =>
    h.scratch hthreads (fun o ho => hop o ?_) regions
  have hmem : o ∈ ops.flatMap (·.shape) := List.mem_flatMap.mpr ⟨combiner, hcombiner, ho⟩
  rcases hkind with hkind | hkind
  · exact hkind ▸ hmem
  · exact hkind ▸ hmem

/-! ### Maps -/

theorem mapByThreads (pattern : List PatElem) {op : SegOp} (hop : ∀ o ∈ op.sizes, A o.toExp)
    (hwidth : B op.grid.groupWidth) :
    P (Lowering.mapByThreads pattern op) fun _ => True :=
  h.bind (h.lift _) fun _ => h.bind (h.lift _) fun _ => h.bind (h.threadBody _ _) fun _ =>
    h.bind (h.threadResults _ _ _) fun _ => h.emitKernel _ _ (hop _ op.numGroups_mem) (hop _ op.groupSize_mem) hwidth

omit h in
/-- What is computed in advance does not change the size of a launch. -/
theorem precompute_numThreads (env : HostEnv) (launch : Launch) (stms : List BodyStm) :
    Fresh.From 0 (launch.precompute env stms) fun r => r.1.numThreads = launch.numThreads := by
  refine (Fresh.From.foldlM (Q := fun r : Launch × List Stmt => r.1.numThreads = launch.numThreads) rfl
    fun stm _ found hfound => ?_).bind fun r hr => .pure hr
  obtain ⟨known, code⟩ := found
  cases stm with
  | nested pattern op =>
    unfold Launch.precomputeStep
    dsimp only
    split
    · exact .pure hfound
    split
    · split
      · exact .pure hfound
      · exact (Fresh.From.fresh _).bind fun _ _ => .pure hfound
    · split
      · exact .pure hfound
      · exact (Fresh.From.freshFor _ _).bind fun _ _ => .pure hfound
  | _ => exact .pure hfound

theorem mapByGroups (pattern : List PatElem) {op : SegOp} (hop : ∀ o ∈ op.sizes, A o.toExp)
    (hwidth : B op.grid.groupWidth) :
    P (Lowering.mapByGroups pattern op) fun _ => True := by
  have hcount := hop _ op.numGroups_mem
  have hsize := hop _ op.groupSize_mem
  have hstart : P (liftM (Launch.start op.grid.groupCount op.grid.groupWidth)) (A ·.1.numThreads) :=
    h.results (h.lift _) fun hrun => (lift_eq_ok.mp hrun).1 ▸ h.sizing.mul hcount hsize
  refine h.bind_of hstart fun r hr => h.bind h.read fun s => ?_
  refine h.bind_of (h.lift_of (precompute_numThreads s.env r.1 op.stms)) fun r' hr' => h.bind (h.lift _) fun nest => ?_
  refine h.bind (h.bind (h.codeAll (fun scope _ inner hs hmem => hs ▸ h.nestedCode ?_ fun o ho => ?_) rfl)
    fun _ => h.done) fun _ => h.bind (h.groupResults _ _ _) fun _ => h.emitKernel _ _ hcount hsize hwidth
  · exact hs ▸ hr' ▸ hr
  · exact hop o (op.nested_sizes hmem ho)

/-! ### Fills and histograms -/

theorem replicate (dest : Ident) (value : Operand) : P (Lowering.replicate dest value) fun _ => True :=
  h.bind_of (h.globalArray _ _ _) fun _ hdest => h.fill _ _ hdest

theorem iota (dest : Ident) (start step : Operand) : P (Lowering.iota dest start step) fun _ => True :=
  h.bind_of (h.globalArray _ _ _) fun _ hdest => h.fill _ _ hdest

theorem copy (dest source : Ident) : P (Lowering.copy dest source) fun _ => True := by
  refine h.bind_of (h.globalArray _ _ _) fun target htarget => h.bind (h.globalArray _ _ _) fun origin =>
    h.bind (h.check _ _ _) fun _ => ?_
  dsimp only
  split
  · exact h.bind (h.check _ _ _) fun _ => h.fill _ _ htarget
  · exact h.fill _ _ htarget

theorem globalLocks {hs : List (Histogram × AtomicUpdate)} (hhs : ∀ p ∈ hs, ∀ o ∈ p.1.destShape, A o.toExp) :
    P (Lowering.globalLocks hs) fun locking => ∀ l ∈ locking, A l.numLocks := by
  unfold Lowering.globalLocks
  split
  · exact h.pure (by simp)
  · rename_i size sizes hlist
    have hsizes : ∀ x ∈ size :: sizes, A x := by
      rw [← hlist]
      refine List.forall_mem_map.mpr fun p hp => h.sizing.product (List.forall_mem_map.mpr ?_)
      exact hhs p (List.mem_filter.mp hp).1
    refine h.bind h.read fun s => ?_
    have hlocks : A ((sizes.foldl Exp.maximum size).minimum (.int s.config.maxLocks)) :=
      h.sizing.minimum (h.sizing.foldl_maximum hsizes) (h.sizing.int _)
    exact h.bind (h.allocate _ _ hlocks) fun _ => h.pure (by simpa using hlocks)

theorem seedGlobal (p : PatElem) (initial : Ident) (span : Option Span) :
    P (Lowering.seedGlobal p initial span) fun _ => True := by
  unfold Lowering.seedGlobal
  dsimp only
  split
  · exact h.bind (h.copy _ _) fun _ => h.bind (h.globalArray _ _ _) fun _ => h.done
  · exact h.bind (h.globalArray _ _ _) fun _ => h.done

theorem seedGlobals (span : Option Span) : ∀ (hs : List Histogram) (pattern : List PatElem),
    (hs.map (·.lambda.arity)).sum ≤ pattern.length → P (Lowering.seedGlobals span hs pattern) fun _ => True
  | [], _, _ => h.done
  | hist :: hs, pattern, hrange => by
    rw [List.map_cons, List.sum_cons] at hrange
    have rest : (hs.map (·.lambda.arity)).sum ≤ (pattern.drop hist.lambda.arity).length := by
      rw [List.length_drop]
      omega
    exact h.bind (h.check _ _ _) fun _ => h.bind (h.inRange (.inr (by omega))) fun _ =>
      h.bind (h.mapM fun _ _ => h.seedGlobal _ _ _) fun _ => h.bind (seedGlobals span hs _ rest) fun _ => h.done

theorem histogramValue (span : Option Span) (result : BodyResult) :
    P (Lowering.histogramValue span result) fun _ => True :=
  h.plainExp result _ _

theorem updateByThreads {pattern : List PatElem} {op : SegOp} (hop : ∀ o ∈ op.sizes, A o.toExp)
    (hwidth : B op.grid.groupWidth) {hs : List Histogram}
    (hcounts : IgnoresBreaks P ∨ Composable.Counted hs pattern op.results) (locking : Option Locking)
    (updates : List AtomicUpdate) (dests : List (List View)) :
    P (Lowering.updateByThreads pattern op hs locking updates dests) fun _ => True := by
  have values : IgnoresBreaks P ∨
      Histogram.components hs ≤ ((op.results.drop hs.length).take (Histogram.components hs)).length := by
    refine hcounts.imp id fun hcounts => ?_
    rw [List.length_take, List.length_drop]
    have := hcounts.1
    omega
  exact h.bind (h.lift _) fun _ => h.bind (h.lift _) fun _ => h.bind (h.threadBody _ _) fun _ =>
    h.bind (h.updateCode _ _ _ (h.histogramValue _) _ _ _ _ _ values) fun _ => h.bind (h.mappedResults hcounts) fun _ =>
      h.bind (h.threadResults _ _ _) fun _ => h.emitKernel _ _ (hop _ op.numGroups_mem) (hop _ op.groupSize_mem) hwidth

theorem histogramByThreads (pattern : List PatElem) {op : SegOp} {hs : List Histogram} (hkind : op.kind = .histogram hs)
    (hop : ∀ o ∈ op.sizes, A o.toExp) (hwidth : B op.grid.groupWidth) :
    P (Lowering.histogramByThreads pattern op hs) fun _ => True := by
  have hdests : ∀ hist ∈ hs, ∀ o ∈ hist.destShape, A o.toExp := fun hist hhist o ho =>
    hop o (op.kind_sizes (hkind ▸ List.mem_flatMap.mpr ⟨hist, hhist, ho⟩))
  refine h.bind_of (h.checkCounts hs op pattern) fun _ hcounts => ?_
  refine h.bind (h.inRange (.inr (Nat.le_trans (Nat.le_add_right _ _) hcounts.1))) fun _ =>
    h.bind (h.mapM fun r _ => h.histogramValue _ r) fun _ => h.bind (h.inRange (.inr hcounts.1)) fun _ =>
      h.bind (h.mapM fun r _ => h.histogramValue _ r) fun _ => h.bind h.read fun s => ?_
  refine h.bind_of (h.globalLocks fun p hp => hdests p.1 (List.of_mem_zip hp).1) fun locking hlocking =>
    h.bind (h.seedGlobals _ _ _ (Histogram.components_eq hs ▸ hcounts.2)) fun dests => ?_
  dsimp only
  split
  · rename_i l
    exact h.bind (h.fill _ _ (hlocking l rfl)) fun _ => h.updateByThreads hop hwidth (.inr hcounts) _ _ _
  · exact h.updateByThreads hop hwidth (.inr hcounts) _ _ _

end Composable.Steps

/-! ### Reductions over a launch -/

section
variable {α β : Type}

/-- The results of a computation for each element of a list, each one in relation to its element. -/
theorem forall₂_of_mapM {R : α → β → Prop} {g : α → Lowering β} {setting : Setting}
    (h : ∀ {a σ b σ'}, g a setting σ = .ok (b, σ') → R a b) :
    ∀ {as : List α} {bs : List β} {σ σ' : Session}, as.mapM g setting σ = .ok (bs, σ') → List.Forall₂ R as bs
  | [], bs, σ, σ', hrun => by
    rw [List.mapM_nil] at hrun
    rw [(pure_eq_ok.mp hrun).1]
    exact .nil
  | a :: as, bs, σ, σ', hrun => by
    rw [List.mapM_cons] at hrun
    obtain ⟨b, σ₁, hb, hrun⟩ := bind_eq_ok.mp hrun
    obtain ⟨rest, σ₂, hrest, hrun⟩ := bind_eq_ok.mp hrun
    rw [(pure_eq_ok.mp hrun).1]
    exact .cons (h hb) (forall₂_of_mapM h hrest)

/-- A computation for each element of a list, each of which leaves the session, and its results. -/
theorem forall₂_of_mapM_eq_ok {R : α → β → Prop} {g : α → Lowering β} {setting : Setting} {σ σ' : Session} :
    ∀ {as : List α} {bs : List β}, (∀ a b σ', g a setting σ = .ok (b, σ') → R a b ∧ σ' = σ) →
      as.mapM g setting σ = .ok (bs, σ') → List.Forall₂ R as bs ∧ σ' = σ
  | [], _, _, h => by
    obtain ⟨rfl, rfl⟩ := pure_eq_ok.mp h
    exact ⟨.nil, rfl⟩
  | a :: as, _, hg, h => by
    rw [List.mapM_cons] at h
    obtain ⟨b, σ₁, hb, h⟩ := bind_eq_ok.mp h
    obtain ⟨bs, σ₂, hbs, h⟩ := bind_eq_ok.mp h
    obtain ⟨rfl, rfl⟩ := pure_eq_ok.mp h
    obtain ⟨hR, rfl⟩ := hg a b σ₁ hb
    obtain ⟨hrest, rfl⟩ := forall₂_of_mapM_eq_ok hg hbs
    exact ⟨.cons hR hrest, rfl⟩

theorem length_of_mapM {g : α → Lowering β} {setting : Setting} {as : List α} {bs : List β} {σ σ' : Session}
    (h : as.mapM g setting σ = .ok (bs, σ')) : bs.length = as.length :=
  (forall₂_of_mapM (R := fun _ _ => True) (fun _ => trivial) h).length_eq.symm

theorem length_freshFor (stem : String) : ∀ (as : List α) (n : Nat), ((freshFor stem as).run n).1.length = as.length
  | [], _ => rfl
  | _ :: as, n => congrArg (· + 1) (length_freshFor stem as (n + 1))

theorem limitation_bind_ne_ok {cause : Limitation} {span : Option Span} {g : α → Lowering β} {setting : Setting}
    {σ σ' : Session} {b : β} : (limitation cause span >>= g) setting σ ≠ .ok (b, σ') := fun h => by
  obtain ⟨_, _, h, -⟩ := bind_eq_ok.mp h
  exact throw_ne_ok.mp h

end

/-- The operators of a reduction have together at most as many neutral elements as components. -/
def EnoughValues (ops : List Combiner) : Prop :=
  (ops.map (·.neutral.length)).sum ≤ (ops.map (·.lambda.resultTypes.length)).sum

instance (ops : List Combiner) : Decidable (EnoughValues ops) := inferInstanceAs (Decidable (_ ≤ _))

theorem sum_resultTypes_le (ops : List Combiner) :
    (ops.map (·.lambda.resultTypes.length)).sum ≤ (ops.map (·.lambda.arity)).sum := by
  induction ops with
  | nil => exact Nat.le_refl _
  | cons op ops ih =>
    have : op.lambda.resultTypes.length ≤ op.lambda.arity := by
      rw [Lambda.resultTypes, List.length_map, Lambda.left, List.length_take]
      exact Nat.min_le_left _ _
    rw [List.map_cons, List.map_cons, List.sum_cons, List.sum_cons]
    omega

/-- There is a contribution for each component of each operator. -/
theorem reductionParts_contributions {pattern : List PatElem} {op : SegOp} {ops : List Combiner} {setting : Setting}
    {parts : ReductionParts} {σ σ' : Session} (h : reductionParts pattern op ops setting σ = .ok (parts, σ')) :
    parts.contributions.length = (ops.map (·.lambda.arity)).sum ∧ op.space.rank = 1 := by
  have hcomponents := foldl_add (·.lambda.arity) ops 0
  rw [Nat.zero_add] at hcomponents
  unfold reductionParts at h
  dsimp only at h
  split at h
  · exact absurd h limitation_bind_ne_ok
  rename_i hrank
  generalize ops.find? (!·.isScalar) = bad? at h
  cases bad? with
  | some bad => exact absurd h limitation_bind_ne_ok
  | none =>
    obtain ⟨_, σ₁, hcheck, h⟩ := bind_eq_ok.mp h
    obtain ⟨_, _, -, h⟩ := bind_eq_ok.mp h
    obtain ⟨contributions, σ₂, hcontributions, h⟩ := bind_eq_ok.mp h
    obtain ⟨_, _, -, h⟩ := bind_eq_ok.mp h
    obtain ⟨_, σ₃, -, h⟩ := bind_eq_ok.mp h
    have hcounts := of_decide_eq_true (check_eq_ok.mp hcheck).1
    rw [(pure_eq_ok.mp h).1, length_of_mapM hcontributions, List.length_take, hcomponents]
    rw [hcomponents] at hcounts
    exact ⟨by omega, Decidable.of_not_not hrank⟩

/-- The accumulators of the operators have a variable for each neutral element. -/
theorem accumulators_vars {ops : List Combiner} {accs : List Accumulator} {setting : Setting} {σ σ' : Session}
    (h : (ops.mapM fun op => (Accumulator.ofOp op : Lowering _)) setting σ = .ok (accs, σ')) :
    (accs.map (·.vars.length)).sum = (ops.map (·.neutral.length)).sum := by
  have hvars : List.Forall₂ (fun (op : Combiner) (a : Accumulator) => a.vars.length = op.neutral.length) ops accs := by
    refine forall₂_of_mapM (fun {op σ a σ'} h => ?_) h
    rw [(lift_eq_ok.mp h).1]
    exact length_freshFor _ _ _
  clear h
  induction hvars with
  | nil => rfl
  | cons h _ ih => rw [List.map_cons, List.map_cons, List.sum_cons, List.sum_cons, h, ih]

namespace Composable.Steps
variable {P : {α : Type} → Lowering α → (α → Prop) → Prop} {A B : Exp → Prop} (h : Composable.Steps P A B)
include h

theorem foldAll : ∀ {accs : List Accumulator} {values : List Exp},
    IgnoresBreaks P ∨ (accs.map (·.vars.length)).sum ≤ values.length → P (Accumulator.foldAll accs values) fun _ => True
  | [], _, _ => h.done
  | a :: as, values, hrange => by
    rw [List.map_cons, List.sum_cons] at hrange
    have rest : IgnoresBreaks P ∨ (as.map (·.vars.length)).sum ≤ (values.drop a.vars.length).length := by
      rw [List.length_drop]
      exact hrange.imp id fun hle => by omega
    exact h.bind (h.inRange (hrange.imp id fun hle => by omega)) fun _ => h.bind (h.lift _) fun _ =>
      h.bind (foldAll rest) fun _ => h.done

theorem reductionParts (pattern : List PatElem) (op : SegOp) (ops : List Combiner) :
    P (Lowering.reductionParts pattern op ops) fun parts =>
      parts.contributions.length = (ops.map (·.lambda.arity)).sum ∧ op.space.rank = 1 := by
  -- What follows the two checks, each branch of which continues with it.
  have rest : P (do
      let components := ops.foldl (fun n op => n + op.lambda.arity) 0
      Lowering.check (components ≤ pattern.length ∧ op.results.length = pattern.length)
        (.reductionCounts op.results.length pattern.length components) op.span
      Lowering.inRange components op.results.length
      let contributions ← (op.results.take components).mapM fun result => do
        return (← result.plain .reductionValue op.span).toExp
      Lowering.inRange components pattern.length
      let dests ← (pattern.take components).mapM fun p => do
        return (← Lowering.globalArray p.name "segred" op.span).view
      return ({ dests, contributions, mapped := (pattern.zip op.results).drop components } : ReductionParts))
      fun _ => True := by
    refine h.bind_of (h.check _ _ _) fun _ hcounts => ?_
    obtain ⟨hdests, hresults⟩ := of_decide_eq_true hcounts
    exact h.bind (h.inRange (.inr (hresults ▸ hdests))) fun _ => h.bind (h.mapM fun r _ => h.plainExp r _ _) fun _ =>
      h.bind (h.inRange (.inr hdests)) fun _ =>
        h.bind (h.mapM fun _ _ => h.bind (h.globalArray _ _ _) fun _ => h.done) fun _ => h.done
  refine h.results (Q := fun _ => True) ?_ reductionParts_contributions
  unfold Lowering.reductionParts
  dsimp only
  split
  · refine h.bind (h.limitation _ _) fun _ => ?_
    split
    · exact h.bind (h.limitation _ _) fun _ => rest
    · exact rest
  · split
    · exact h.bind (h.limitation _ _) fun _ => rest
    · exact rest

theorem accumulators (ops : List Combiner) : P (ops.mapM fun op => (Accumulator.ofOp op : Lowering _)) fun accs =>
    (accs.map (·.vars.length)).sum = (ops.map (·.neutral.length)).sum :=
  h.results (h.mapM fun _ _ => h.lift _) accumulators_vars

section
variable {op : SegOp} {ops : List Combiner} (hop : ∀ o ∈ op.sizes, A o.toExp) (hwidth : B op.grid.groupWidth)
  (henough : IgnoresBreaks P ∨ EnoughValues ops)
include hop hwidth henough

theorem reducePoints {parts : ReductionParts} {partials : List View}
    (hparts : parts.contributions.length = (ops.map (·.lambda.arity)).sum ∧ op.space.rank = 1) :
    P (Lowering.reducePoints op ops parts partials) fun _ => True := by
  refine h.bind (h.lift _) fun _ => h.bind_of (h.accumulators ops) fun accs haccs => ?_
  refine h.bind (h.inRange (.inr (Nat.le_of_eq hparts.2.symm))) fun _ => h.bind (h.lift _) fun _ =>
    h.bind (h.lift _) fun _ => h.bind (h.threadBody _ _) fun _ =>
    h.bind (h.threadResults _ _ _) fun _ => h.bind (h.foldAll ?_) fun _ => h.bind (h.lift _) fun _ =>
      h.emitKernel _ _ (hop _ op.numGroups_mem) (hop _ op.groupSize_mem) hwidth
  rw [haccs, hparts.1]
  exact henough.imp id fun henough => Nat.le_trans henough (sum_resultTypes_le ops)

theorem reducePartials {partials dests : List View}
    (hpartials : partials.length = (ops.map (·.lambda.resultTypes.length)).sum) :
    P (Lowering.reducePartials op ops partials dests) fun _ => True := by
  refine h.bind (h.lift _) fun _ => h.bind_of (h.accumulators ops) fun accs haccs => ?_
  refine h.bind (h.lift _) fun _ => h.bind (h.lift _) fun _ => ?_
  have hnames : P (liftM (freshFor "partial" partials) : Lowering _) fun names => names.length = partials.length :=
    h.results (h.lift _) fun hrun => (lift_eq_ok.mp hrun).1 ▸ length_freshFor _ _ _
  refine h.bind_of hnames fun names hnames => h.bind (h.foldAll ?_) fun _ => h.bind (h.lift _) fun _ =>
    h.emitKernel _ _ (h.sizing.int 1) (hop _ op.groupSize_mem) hwidth
  rw [haccs, List.length_map, hnames, hpartials]
  exact henough

theorem reduceByThreads (pattern : List PatElem) : P (Lowering.reduceByThreads pattern op ops) fun _ => True := by
  refine h.bind_of (h.reductionParts pattern op ops) fun parts hparts => ?_
  have hpartials : P ((ops.flatMap (·.lambda.resultTypes)).mapM fun type =>
      Lowering.allocate "segred_partials" type op.grid.groupCount)
      fun partials => partials.length = (ops.map (·.lambda.resultTypes.length)).sum :=
    h.results (h.mapM fun _ _ => h.allocate _ _ (hop _ op.numGroups_mem)) fun hrun => by
      rw [length_of_mapM hrun, List.length_flatMap]
  refine h.bind_of hpartials fun partials hpartials => ?_
  exact h.bind (h.reducePoints hop hwidth henough hparts) fun _ => h.reducePartials hop hwidth henough hpartials

end

/-! ### Modules -/

/-- The lowering of an operation has the property, if its sizes are in `A` and its operators have enough values. -/
theorem hostOp {op : HostOp} (hop : ∀ o ∈ op.sizes, A o.toExp)
    (hwidth : ∀ pattern inner, op = .seg pattern inner → B inner.grid.groupWidth)
    (henough : IgnoresBreaks P ∨ ∀ pattern inner ops, op = .seg pattern inner → inner.grid.level = .thread →
      inner.kind = .reduce ops → EnoughValues ops) : P (Lowering.hostOp op) fun _ => True := by
  cases op with
  | seg pattern op =>
    show P (segmented pattern op) _
    have hwidth := hwidth pattern op rfl
    unfold segmented
    split
    · exact h.mapByThreads _ hop hwidth
    · exact h.mapByGroups _ hop hwidth
    · rename_i ops hlevel hkind
      exact h.reduceByThreads hop hwidth (henough.imp id fun henough => henough _ _ _ rfl hlevel hkind) _
    · rename_i hs _ hkind
      exact h.histogramByThreads _ hkind hop hwidth
    · exact h.limitation _ _
    · exact h.defect _ _
  | replicate dest value => exact h.replicate dest value
  | iota dest start step => exact h.iota dest start step
  | copy dest source => exact h.copy dest source

end Composable.Steps
end Lowering

/-- The program of a module is that of the last session. -/
theorem Module.lower_eq_ok {m : Module} {config : Config} {p : Program} : m.lower config = .ok p ↔
    ∃ σ, (m.ops.forM Lowering.hostOp) ⟨config, m.env⟩ {} = .ok ((), σ) ∧ p = σ.program := by
  unfold lower
  cases hrun : (m.ops.forM Lowering.hostOp) ⟨config, m.env⟩ {} with
  | error e =>
    rw [ReaderT.run, StateT.run, hrun]
    simp [Except.map]
  | ok r =>
    rw [ReaderT.run, StateT.run, hrun]
    simp [Except.map, Prod.ext_iff, eq_comm]

end SegKernel
