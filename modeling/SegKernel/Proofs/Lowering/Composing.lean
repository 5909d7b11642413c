import Mathlib.Algebra.GroupWithZero.Nat
import SegKernel.Lowering.Nested
import SegKernel.Proofs.Lowering.Yields

/-! Properties that go from the steps of lowering to the code of bodies. If computations take a property over
    from what they are put together from, then all code of single threads is made with it. -/

namespace SegKernel

/-- A computation under new names that fails only with a report. -/
def Fresh.Reports {α : Type} (f : ExceptT LowerError Fresh α) : Prop :=
  ∀ n e, (Fresh.run f.run n).1 = .error e → e.notice?.isSome = true

namespace Fresh.Reports
variable {α β : Type}

theorem pure (a : α) : Reports (pure a) := fun _ _ h => by cases h

theorem throw {e : LowerError} (he : e.notice?.isSome = true) : Reports (throw e : ExceptT LowerError Fresh α) := by
  intro n e' h
  cases h
  exact he

theorem lift (f : Fresh α) : Reports (liftM f) := fun _ _ h => by cases h

theorem bind {f : ExceptT LowerError Fresh α} {g : α → ExceptT LowerError Fresh β} (hf : Reports f)
    (hg : ∀ a, Reports (g a)) : Reports (f >>= g) := by
  intro n e h
  rw [ExceptT.run_bind, run_bind] at h
  cases hr : (Fresh.run f.run n).1 with
  | error e' =>
    rw [hr] at h
    cases h
    exact hf n e hr
  | ok a =>
    rw [hr] at h
    exact hg a _ e h

theorem mapM {g : α → ExceptT LowerError Fresh β} (h : ∀ a, Reports (g a)) : ∀ as : List α, Reports (as.mapM g)
  | [] => by
    rw [List.mapM_nil]
    exact pure []
  | a :: as => by
    rw [List.mapM_cons]
    exact (h a).bind fun _ => (mapM h as).bind fun _ => pure _

end Fresh.Reports

theorem AtomicUpdate.code_reports (update : AtomicUpdate) (lambda : Lambda) (locking : Option Locking)
    (dests : List View) (index : Exp) (values : List Exp) :
    Fresh.Reports (update.code lambda locking dests index values) := by
  unfold AtomicUpdate.code
  split
  · exact .throw rfl
  · refine Fresh.Reports.bind ?_ fun _ => .pure _
    unfold AtomicUpdate.body
    split
    · exact (Fresh.Reports.mapM (fun _ => .lift _) _).bind fun _ => .pure _
    · refine (Fresh.Reports.lift _).bind fun assumed => ?_
      split
      · exact .lift _
      · exact .throw rfl
    · split
      · exact .lift _
      · exact .throw rfl

/-! ### Counts -/

theorem foldl_add {α : Type} (f : α → Nat) :
    ∀ (as : List α) (n : Nat), as.foldl (fun n a => n + f a) n = n + (as.map f).sum
  | [], _ => rfl
  | a :: as, n => by rw [List.foldl_cons, foldl_add f as, List.map_cons, List.sum_cons, Nat.add_assoc]

theorem sum_zip_le {α β : Type} (f : α → Nat) : ∀ (as : List α) (bs : List β),
    ((as.zip bs).map fun p => f p.1).sum ≤ (as.map f).sum
  | [], _ => Nat.le_refl _
  | _ :: _, [] => Nat.zero_le _
  | _ :: as, _ :: bs => Nat.add_le_add_left (sum_zip_le f as bs) _

theorem Histogram.components_eq (hs : List Histogram) : components hs = (hs.map (·.lambda.arity)).sum := by
  rw [components, foldl_add, Nat.zero_add]

namespace Lowering

/-- Whether computations break off does not matter to the property. -/
def IgnoresBreaks (P : {α : Type} → Lowering α → (α → Prop) → Prop) : Prop :=
  ∀ taken available, P (throw (.outOfRange taken available) : Lowering Unit) fun _ => True

/-- Computations take the property over from what they are put together from: `P f Q` is the property of `f`
    together with the fact that its results are in `Q`. Reports and new names do not matter. -/
structure Composable (P : {α : Type} → Lowering α → (α → Prop) → Prop) : Prop where
  pure : ∀ {α : Type} {a : α} {Q : α → Prop}, Q a → P (pure a) Q
  bind_of : ∀ {α β : Type} {f : Lowering α} {g : α → Lowering β} {Q : α → Prop} {R : β → Prop},
    P f Q → (∀ a, Q a → P (g a) R) → P (f >>= g) R
  results : ∀ {α : Type} {f : Lowering α} {Q R : α → Prop}, P f Q →
    (∀ {setting σ a σ'}, f setting σ = .ok (a, σ') → R a) → P f R
  report : ∀ {α : Type} {e : LowerError} {Q : α → Prop}, e.notice?.isSome = true → P (throw e : Lowering α) Q
  lift : ∀ {α : Type} (f : Fresh α), P (liftM f : Lowering α) fun _ => True
  liftExcept : ∀ {α : Type} {f : ExceptT LowerError Fresh α}, Fresh.Reports f → P (liftM f : Lowering α) fun _ => True
  read : P (read : Lowering Setting) fun _ => True
  get : P (get : Lowering Session) fun _ => True
  markScatter : P markScatter fun _ => True

namespace Composable
variable {P : {α : Type} → Lowering α → (α → Prop) → Prop} {α β : Type} (h : Composable P)
include h

theorem bind {f : Lowering α} {g : α → Lowering β} {Q : α → Prop} {R : β → Prop} (hf : P f Q) (hg : ∀ a, P (g a) R) :
    P (f >>= g) R := h.bind_of hf fun a _ => hg a

/-- A computation that has come to its end. -/
theorem done {a : α} : P (Pure.pure a) fun _ => True := h.pure trivial

theorem forget {f : Lowering α} {Q : α → Prop} (hf : P f Q) : P f fun _ => True := h.results hf fun _ => trivial

theorem lift_of {f : Fresh α} {Q : α → Prop} (hf : Fresh.From 0 f Q) : P (liftM f : Lowering α) Q :=
  h.results (h.lift f) fun hrun => (lift_eq_ok.mp hrun).1 ▸ (hf _ (Nat.zero_le _)).1

theorem limitation (cause : Limitation) (span : Option Span) :
    P (Lowering.limitation cause span : Lowering α) fun _ => True :=
  h.report rfl

theorem defect (cause : Defect) (span : Option Span) : P (Lowering.defect cause span : Lowering α) fun _ => True :=
  h.report rfl

theorem check (c : Bool) (cause : Defect) (span : Option Span) : P (Lowering.check c cause span) fun _ => c = true := by
  unfold Lowering.check
  split
  · rename_i hc
    exact h.pure hc
  · exact h.report rfl

/-- A list has the elements that are taken of it, unless it does not matter. -/
theorem inRange {taken available : Nat} (hrange : IgnoresBreaks P ∨ taken ≤ available) :
    P (Lowering.inRange taken available) fun _ => taken ≤ available := by
  unfold Lowering.inRange
  split
  · rename_i hle
    exact h.pure hle
  · rename_i hlt
    exact h.results (hrange.resolve_right hlt _ _) fun hrun => (throw_ne_ok.mp hrun).elim

theorem require (a? : Option α) (cause : Defect) (span : Option Span) :
    P (Lowering.require a? cause span) fun a => a? = some a := by
  unfold Lowering.require
  split
  · exact h.pure rfl
  · exact h.report rfl

theorem mapM {g : α → Lowering β} : ∀ {as : List α}, (∀ a ∈ as, P (g a) fun _ => True) → P (as.mapM g) fun _ => True
  | [], _ => by
    rw [List.mapM_nil]
    exact h.done
  | a :: as, hg => by
    rw [List.mapM_cons]
    refine h.bind (hg a List.mem_cons_self) fun _ => h.bind (mapM ?_) fun _ => h.done
    exact fun b hb => hg b (List.mem_cons_of_mem a hb)

theorem forM {g : α → Lowering Unit} : ∀ {as : List α}, (∀ a ∈ as, P (g a) fun _ => True) → P (as.forM g) fun _ => True
  | [], _ => h.done
  | a :: _, hg => h.bind (hg a List.mem_cons_self) fun _ => forM fun b hb => hg b (List.mem_cons_of_mem a hb)

theorem captures (kernel : String) (body : Stmt) : P (Lowering.captures kernel body) fun _ => True :=
  h.bind h.read fun _ => h.bind h.get fun _ => h.bind (h.mapM fun _ _ => h.forget (h.require _ _ _)) fun _ =>
    h.bind (h.mapM fun _ _ => h.bind (h.check _ _ _) fun _ => h.done) fun _ => h.done

/-! ### Bodies and results -/

section
variable (scope : BodyScope)

theorem array? (name : Ident) : P (scope.array? name) fun _ => True := by
  unfold BodyScope.array?
  split
  · exact h.done
  · exact h.bind h.read fun _ => h.bind h.get fun _ => h.done

theorem array (name : Ident) : P (scope.array name) fun _ => True :=
  h.bind (h.array? scope name) fun _ => h.forget (h.require _ _ _)

theorem readCode (name : Ident) (type : ScalarType) (array : Ident) (index : List Exp) :
    P (BodyStm.readCode scope name type array index) fun _ => True :=
  h.bind (h.array scope array) fun _ => h.bind (h.check _ _ _) fun _ => h.bind (h.check _ _ _) fun _ =>
    h.bind h.read fun _ => h.done

end

/-- The scope after a statement is of the same launch. -/
theorem code {nestedCode : BodyStm.NestedCode} {launch : Launch} {scope : BodyScope} {stm : BodyStm}
    (hnested : ∀ pattern op, stm = .nested pattern op → P (nestedCode scope pattern op) (·.2.launch = launch))
    (hscope : scope.launch = launch) : P (stm.code nestedCode scope) (·.2.launch = launch) := by
  cases stm with
  | compute name type value => exact h.pure hscope
  | index name type array is => exact h.bind (h.readCode scope name type array is) fun _ => h.pure hscope
  | arrayLit name type elems => exact h.pure hscope
  | nested pattern op => exact hnested pattern op rfl

theorem codeAll {nestedCode : BodyStm.NestedCode} {launch : Launch} : ∀ {stms : List BodyStm} {scope : BodyScope},
    (∀ scope pattern op, scope.launch = launch → BodyStm.nested pattern op ∈ stms →
      P (nestedCode scope pattern op) (·.2.launch = launch)) →
    scope.launch = launch → P (BodyStm.codeAll nestedCode scope stms) (·.2.launch = launch)
  | [], _, _, hscope => h.pure hscope
  | stm :: stms, scope, hnested, hscope => by
    have first : P (stm.code nestedCode scope) (·.2.launch = launch) :=
      h.code (fun pattern op e => hnested scope pattern op hscope (e ▸ List.mem_cons_self)) hscope
    refine h.bind_of first fun r hr => h.bind_of (codeAll ?_ hr) fun _ hlast => h.pure hlast
    exact fun scope pattern op hs hmem => hnested scope pattern op hs (List.mem_cons_of_mem stm hmem)

section
variable (scope : BodyScope)

theorem threadBody (stms : List BodyStm) : P (BodyStm.threadBody scope stms) fun _ => True :=
  h.bind (h.codeAll (fun _ _ _ _ _ => h.report rfl) rfl) fun _ => h.done

theorem store (dest : ArrayInfo) (indices : List Exp) (value : Operand) :
    P (scope.store dest indices value) fun _ => True := by
  refine h.bind (h.check _ _ _) fun _ => ?_
  split
  · exact h.bind (h.lift _) fun _ => h.bind (h.lift _) fun _ => h.done
  · exact h.done

theorem scatter (name : Ident) (dest : ArrayInfo) (extents : List Exp) (writes : List (List Operand × Operand)) :
    P (scope.scatter name dest extents writes) fun _ => True :=
  h.bind (h.mapM fun _ _ => h.bind (h.check _ _ _) fun _ => h.done) fun _ => h.done

theorem concatenate (flat : Ident) (dest : ArrayInfo) (split : Split) (perThread : Exp) (array : Ident) :
    P (scope.concatenate flat dest split perThread array) fun _ => True :=
  h.bind (h.array scope array) fun _ => h.bind (h.lift _) fun _ => h.bind (h.lift _) fun _ => h.done

theorem threadResult (space : IterationSpace) (name : Ident) (result : BodyResult) :
    P (scope.threadResult space name result) fun _ => True := by
  refine h.bind (h.array scope name) fun dest => ?_
  cases result with
  | returns value => exact h.store scope dest space.indexExps value
  | tile tiles array => exact h.limitation _ _
  | write shape writes => exact h.bind h.markScatter fun _ => h.scatter scope name dest _ writes
  | concat split perThread array => exact h.concatenate scope space.flat dest split _ array

theorem threadResults (space : IterationSpace) (results : BoundResults) :
    P (scope.threadResults space results) fun _ => True :=
  h.bind (h.mapM fun _ _ => h.threadResult scope space _ _) fun _ => h.done

theorem assembleTile (indices : List Exp) (dest : ArrayInfo) (tiles : List (Operand × Operand)) (array : Ident) :
    P (scope.assembleTile indices dest tiles array) fun _ => True :=
  h.bind (h.check _ _ _) fun _ => h.bind (h.array scope array) fun _ => h.bind (h.lift _) fun _ =>
    h.bind (h.lift _) fun _ => h.bind (h.lift _) fun _ => h.bind (h.lift _) fun _ => h.done

theorem storeOfGroup (indices : List Exp) (dest : ArrayInfo) (value : Operand) :
    P (scope.storeOfGroup indices dest value) fun _ => True := by
  unfold BodyScope.storeOfGroup
  split
  · exact h.bind (h.check _ _ _) fun _ => h.bind (h.lift _) fun _ => h.bind (h.lift _) fun _ => h.done
  · exact h.bind (h.store scope dest indices value) fun _ => h.done

theorem groupResult (indices : List Exp) (name : Ident) (result : BodyResult) :
    P (scope.groupResult indices name result) fun _ => True := by
  refine h.bind (h.array scope name) fun dest => ?_
  cases result with
  | returns value => exact h.storeOfGroup scope indices dest value
  | tile tiles array => exact h.assembleTile scope indices dest tiles array
  | write shape writes => exact h.limitation _ _
  | concat split perThread array => exact h.limitation _ _

theorem groupResults (indices : List Exp) (results : BoundResults) :
    P (scope.groupResults indices results) fun _ => True :=
  h.bind (h.mapM fun _ _ => h.groupResult scope indices _ _) fun _ => h.done

end

/-! ### Updates of buckets -/

/-- There are results for all bins and components, and destinations for all components. -/
def Counted (hs : List Histogram) (pattern : List PatElem) (results : List BodyResult) : Prop :=
  hs.length + Histogram.components hs ≤ results.length ∧ Histogram.components hs ≤ pattern.length

theorem checkCounts (hs : List Histogram) (op : SegOp) (pattern : List PatElem) :
    P (Histogram.checkCounts hs op pattern) fun _ => Counted hs pattern op.results :=
  h.results (h.check _ _ _) fun hrun => by
    obtain ⟨hresults, hdests⟩ := of_decide_eq_true (check_eq_ok.mp hrun).1
    exact ⟨hresults, by omega⟩

theorem mappedResults {hs : List Histogram} {pattern : List PatElem} {results : List BodyResult}
    (hrange : IgnoresBreaks P ∨ Counted hs pattern results) :
    P (Histogram.mappedResults hs pattern results) fun _ => True :=
  h.bind (h.inRange (hrange.imp id And.right)) fun _ => h.bind (h.inRange (hrange.imp id And.left)) fun _ => h.done

theorem plain (result : BodyResult) (cause : Defect) (span : Option Span) :
    P (result.plain cause span) fun _ => True := by
  unfold BodyResult.plain
  split
  · exact h.done
  · exact h.defect _ _

theorem plainExp (result : BodyResult) (cause : Defect) (span : Option Span) :
    P (do return (← result.plain cause span).toExp) fun _ => True := h.bind (h.plain result _ _) fun _ => h.done

/-- A histogram has at most as many outer indices as the space has dimensions. -/
theorem coordinates (hist : Histogram) (space : IterationSpace) (bin : Exp) (span : Option Span) :
    P (hist.coordinates space bin span) fun _ => True :=
  h.bind_of (h.check _ _ _) fun _ hrank => h.bind (h.inRange (.inr (by
    have := of_decide_eq_true hrank
    omega))) fun _ => h.done

theorem bucketCode (hist : Histogram) (update : AtomicUpdate) (locking : Option Locking) (dests : List View)
    (space : IterationSpace) (span : Option Span) (bin : Exp) (values : List Exp) :
    P (hist.bucketCode update locking dests space span bin values) fun _ => True :=
  h.bind (h.coordinates hist space bin span) fun _ =>
    h.bind (h.liftExcept (update.code_reports _ _ _ _ _)) fun _ => h.done

theorem updateCode_of_range (locking : Option Locking) (space : IterationSpace) (span : Option Span)
    {plain : BodyResult → Lowering Exp} (hplain : ∀ r, P (plain r) fun _ => True) :
    ∀ (hs : List ((Histogram × AtomicUpdate) × List View)) (bins values : List BodyResult),
      IgnoresBreaks P ∨ (hs.map fun u => u.1.1.lambda.arity).sum ≤ values.length →
        P (Histogram.updateCode locking space span plain hs bins values) fun _ => True
  | [], _, _, _ => by
    unfold Histogram.updateCode
    exact h.done
  | _ :: _, [], _, _ => by
    unfold Histogram.updateCode
    exact h.done
  | ((hist, update), dests) :: hs, bin :: bins, values, hrange => by
    rw [List.map_cons, List.sum_cons] at hrange
    dsimp only at hrange
    have rest : IgnoresBreaks P ∨ (hs.map fun u => u.1.1.lambda.arity).sum ≤
      (values.drop hist.lambda.arity).length := by
      rw [List.length_drop]
      exact hrange.imp id fun hle => by omega
    unfold Histogram.updateCode
    exact h.bind (hplain bin) fun _ => h.bind (h.inRange (hrange.imp id fun hle => by omega)) fun _ =>
      h.bind (h.mapM fun r _ => hplain r) fun _ =>
        h.bind (h.bucketCode hist update locking dests space span _ _) fun _ =>
        h.bind (updateCode_of_range locking space span hplain hs bins _ rest) fun _ => h.done

/-- The updates of histograms that have values for all components. -/
theorem updateCode (locking : Option Locking) (space : IterationSpace) (span : Option Span)
    {plain : BodyResult → Lowering Exp} (hplain : ∀ r, P (plain r) fun _ => True) (hs : List Histogram)
    (updates : List AtomicUpdate) (dests : List (List View)) (bins values : List BodyResult)
    (hrange : IgnoresBreaks P ∨ Histogram.components hs ≤ values.length) :
    P (Histogram.updateCode locking space span plain ((hs.zip updates).zip dests) bins values) fun _ => True := by
  refine h.updateCode_of_range locking space span hplain _ _ _ (hrange.imp id fun hle => ?_)
  rw [Histogram.components_eq] at hle
  have outer := sum_zip_le (fun u : Histogram × AtomicUpdate => u.1.lambda.arity) (hs.zip updates) dests
  exact Nat.le_trans outer (Nat.le_trans (sum_zip_le (fun hist : Histogram => hist.lambda.arity) hs updates) hle)

/-! ### Nested operations -/

section
open Nested
variable (c : Context)

theorem outputIn (scope : BodyScope) (p : PatElem) : P (c.outputIn scope p) fun _ => True := h.forget (h.require _ _ _)

theorem mappedStores (inner : BodyScope) (results : BoundResults) : P (c.mappedStores inner results) fun _ => True := by
  refine h.bind (h.mapM fun r _ => ?_) fun _ => h.done
  obtain ⟨p, result⟩ := r
  cases result with
  | returns value => exact h.bind (h.outputIn c inner p) fun _ => h.store inner _ _ value
  | tile tiles array => exact h.limitation _ _
  | write shape writes => exact h.limitation _ _
  | concat split perThread array => exact h.limitation _ _

theorem cover (code : List Stmt) : P (c.cover code) fun _ => True := h.bind (h.lift _) fun _ => h.done

theorem body : P c.body fun _ => True := h.threadBody _ _

/-- There are a destination and a result for each component of each operator. -/
theorem checkComponents (pattern : List PatElem) (ops : List Combiner) :
    P (c.checkComponents pattern ops) fun _ => (ops.map (·.lambda.arity)).sum ≤ (pattern.zip c.op.results).length := by
  unfold Context.checkComponents
  split
  · exact h.report rfl
  · refine h.results (h.check _ _ _) fun hrun => ?_
    obtain ⟨hcomponents, hresults⟩ := of_decide_eq_true (check_eq_ok.mp hrun).1
    rw [foldl_add, Nat.zero_add] at hcomponents
    rw [List.length_zip]
    omega

theorem storeContribution (inner : BodyScope) (layout : Layout) (view : View) (result : BodyResult) :
    P (c.storeContribution inner layout view result) fun _ => True := by
  refine h.bind (h.plain result _ _) fun value => ?_
  cases layout with
  | shared offset => exact h.done
  | rows lanes regionLength =>
    exact h.bind (h.require _ _ _) fun _ => h.bind (h.lift _) fun _ => h.bind (h.lift _) fun _ => h.done

theorem parts {make : Combiner → BoundResults → Lowering Context.Part} :
    ∀ {ops : List Combiner} {results : BoundResults},
    (∀ op ∈ ops, ∀ results, P (make op results) fun _ => True) → (ops.map (·.lambda.arity)).sum ≤ results.length →
      P (Context.parts make ops results) fun _ => True
  | [], _, _, _ => h.done
  | op :: ops, results, hmake, hrange => by
    rw [List.map_cons, List.sum_cons] at hrange
    have rest : (ops.map (·.lambda.arity)).sum ≤ (results.drop op.lambda.arity).length := by
      rw [List.length_drop]
      omega
    exact h.bind (h.inRange (.inr (by omega))) fun _ => h.bind (hmake op List.mem_cons_self _) fun _ =>
      h.bind (parts (fun op' hop => hmake op' (List.mem_cons_of_mem op hop)) rest) fun _ => h.done

theorem withOperators {pattern : List PatElem} {ops : List Combiner}
    {make : BodyScope → Combiner → BoundResults → Lowering Context.Part}
    (hmake : ∀ inner, ∀ op ∈ ops, ∀ results, P (make inner op results) fun _ => True) :
    P (c.withOperators pattern ops make) fun _ => True :=
  h.bind_of (h.checkComponents c pattern ops) fun _ hrange => h.bind (h.body c) fun _ =>
    h.bind (h.parts (hmake _) hrange) fun _ =>
    h.bind (h.mappedStores c _ _) fun _ => h.bind (h.cover c _) fun _ => h.done

theorem copyRows (views : List View) (layout : Layout) (lanes : Exp) (outputs : List PatElem) :
    P (c.copyRows views layout lanes outputs) fun _ => True :=
  h.bind (h.lift _) fun _ => h.bind (h.mapM fun _ _ => h.bind (h.outputIn c _ _) fun _ =>
    h.bind (h.lift _) fun _ => h.done) fun _ => h.done

theorem readTotals (op : Combiner) (views : List View) (layout : Layout) (outputs : List PatElem) (count : Exp)
    (position : Exp → Exp) (nonempty : Exp) :
    P (c.readTotals op views layout outputs count position nonempty) fun _ => True := by
  unfold Context.readTotals
  dsimp only
  split
  · exact h.done
  · exact h.bind (h.lift _) fun _ => h.bind (h.mapM fun _ _ => h.bind (h.outputIn c _ _) fun _ =>
      h.bind (h.lift _) fun _ => h.done) fun _ => h.done

theorem reduceWhole (op : Combiner) (views : List View) (layout : Layout) (outputs : List PatElem) :
    P (c.reduceWhole op views layout outputs) fun _ => True := by
  unfold Context.reduceWhole
  dsimp only
  split
  · exact h.bind (h.lift _) fun _ => h.bind (h.readTotals c _ _ _ _ _ _ _) fun _ => h.done
  · exact h.bind (h.lift _) fun _ => h.bind (h.readTotals c _ _ _ _ _ _ _) fun _ => h.done

/-- There are segments only where a space has several dimensions. -/
theorem reduceSegments {segment : Exp} (hsegment : c.segmentSize? = some segment) (op : Combiner) (views : List View)
    (layout : Layout) (outputs : List PatElem) :
    P (c.reduceSegments segment op views layout outputs) fun _ => True := by
  have hrank : 1 ≤ c.op.space.rank := by
    unfold Context.segmentSize? at hsegment
    split at hsegment
    · cases hsegment
    · omega
  exact h.bind (h.lift _) fun _ => h.bind (h.inRange (.inr hrank)) fun _ =>
    h.bind (h.readTotals c _ _ _ _ _ _ _) fun _ => h.done

/-- A part of a reduction whose elements lie in given arrays. -/
theorem reducePart_of_views (inner : BodyScope) (op : Combiner) (results : BoundResults)
    (r : List View × Layout × List Stmt) : P (do
      let stores ← (r.1.zip (results.map (·.2))).mapM fun (view, result) =>
        c.storeContribution inner r.2.1 view result
      let steps ← match c.segmentSize? with
        | none => c.reduceWhole op r.1 r.2.1 (results.map (·.1))
        | some segment => c.reduceSegments segment op r.1 r.2.1 (results.map (·.1))
      return ({ declares := r.2.2, stores, steps, fence := r.2.1.fence } : Context.Part)) fun _ => True := by
  refine h.bind (h.mapM fun _ _ => h.storeContribution c _ _ _ _) fun stores => ?_
  dsimp only
  split
  · exact h.bind (h.reduceWhole c _ _ _ _) fun _ => h.done
  · rename_i hsegment
    exact h.bind (h.reduceSegments c hsegment _ _ _ _) fun _ => h.done

theorem seedOne (p : PatElem) (initial : Ident) : P (c.seedOne p initial) fun _ => True :=
  h.bind (h.outputIn c _ _) fun _ => h.bind (h.array? _ _) fun _ => h.bind (h.require _ _ _) fun _ =>
    h.bind (h.lift _) fun _ => h.bind (h.lift _) fun _ => h.done

theorem seedAll : ∀ (hs : List Histogram) (pattern : List PatElem), (hs.map (·.lambda.arity)).sum ≤ pattern.length →
    P (c.seedAll hs pattern) fun _ => True
  | [], _, _ => h.done
  | hist :: hs, pattern, hrange => by
    rw [List.map_cons, List.sum_cons] at hrange
    have rest : (hs.map (·.lambda.arity)).sum ≤ (pattern.drop hist.lambda.arity).length := by
      rw [List.length_drop]
      omega
    exact h.bind (h.check _ _ _) fun _ => h.bind (h.inRange (.inr (by omega))) fun _ =>
      h.bind (h.mapM fun _ _ => h.seedOne c _ _) fun _ => h.bind (seedAll hs _ rest) fun _ => h.done

theorem sharedLocks : P c.sharedLocks fun _ => True := h.bind (h.lift _) fun _ => h.bind (h.lift _) fun _ => h.done

theorem updateBuckets {pattern : List PatElem} {hs : List Histogram} (hcounts : Counted hs pattern c.op.results)
    (locking : Option Locking) (updates : List AtomicUpdate) (dests : List (List View)) :
    P (c.updateBuckets pattern hs locking updates dests) fun _ => True := by
  have values : Histogram.components hs ≤ (c.op.results.drop hs.length).length := by
    rw [List.length_drop]
    have := hcounts.1
    omega
  refine h.bind (h.body c) fun _ => h.bind (h.inRange (.inr (Nat.le_trans (Nat.le_add_right _ _) hcounts.1))) fun _ =>
    h.bind (h.updateCode _ _ _ (fun r => h.plainExp r _ _) _ _ _ _ _ (.inr values)) fun _ => ?_
  exact h.bind (h.mappedResults (.inr hcounts)) fun _ => h.bind (h.mappedStores c _ _) fun _ => h.cover c _

theorem histogramCode (pattern : List PatElem) (hs : List Histogram) :
    P (c.histogramCode pattern hs) fun _ => True := by
  refine h.bind_of (h.checkCounts hs c.op pattern) fun _ hcounts => ?_
  refine h.bind (h.seedAll c hs pattern (Histogram.components_eq hs ▸ hcounts.2)) fun seeded =>
    h.bind h.read fun s => ?_
  dsimp only
  split
  · exact h.bind (h.sharedLocks c) fun _ => h.bind h.done fun _ =>
      h.bind (h.updateBuckets c hcounts _ _ _) fun _ => h.done
  · exact h.bind h.done fun _ => h.bind (h.updateBuckets c hcounts _ _ _) fun _ => h.done

/-! Operators on arrays need memory for their elements. -/

variable {c} {combiner : Combiner} (hscratch : ∀ regions, P (c.scratch combiner regions) fun _ => True)
include hscratch

theorem scanPart (inner : BodyScope) (results : BoundResults) :
    P (c.scanPart inner combiner results) fun _ => True := by
  unfold Context.scanPart
  dsimp only
  split
  · exact h.bind (h.mapM fun _ _ => h.outputIn c _ _) fun _ =>
      h.bind (h.mapM fun _ _ => h.storeContribution c _ _ _ _) fun _ => h.bind (h.lift _) fun _ => h.done
  · split
    · exact h.limitation _ _
    · exact h.bind (hscratch 3) fun _ =>
        h.bind (h.mapM fun _ _ => h.storeContribution c _ _ _ _) fun _ =>
          h.bind (h.lift _) fun _ => h.bind (h.copyRows c _ _ _ _) fun _ => h.done

theorem reducePart (inner : BodyScope) (results : BoundResults) :
    P (c.reducePart inner combiner results) fun _ => True := by
  have rest := h.reducePart_of_views c inner combiner results
  unfold Context.reducePart
  dsimp only
  split
  · exact h.bind (h.mapM fun _ _ => h.bind (h.lift _) fun _ => h.done) fun _ =>
      h.bind h.done rest
  · split
    · exact h.bind (h.limitation _ _) rest
    · exact h.bind (hscratch _) fun _ => h.bind h.done rest

end

open Nested in
/-- The scope after a nested operation is of the same launch. -/
theorem nestedCode {scope : BodyScope} {pattern : List PatElem} {op : SegOp}
    (hscratch : ∀ ops, op.kind = .scan ops ∨ op.kind = .reduce ops → ∀ combiner ∈ ops, ∀ regions,
      P (Context.scratch ⟨scope.addArrays (patternArrays pattern), op⟩ combiner regions) fun _ => True) :
    P (Nested.code scope pattern op) (·.2.launch = scope.launch) := by
  refine h.bind (h.check _ _ _) fun _ => ?_
  dsimp only
  split
  · exact h.bind (h.bind (h.body _) fun _ => h.bind (h.mappedStores _ _ _) fun _ => h.cover _ _) fun _ => h.pure rfl
  · rename_i ops hkind
    exact h.bind (h.withOperators _ fun _ _ hop _ => h.scanPart (hscratch ops (.inl hkind) _ hop) _ _) fun _ =>
      h.pure rfl
  · rename_i ops hkind
    exact h.bind (h.withOperators _ fun _ _ hop _ => h.reducePart (hscratch ops (.inr hkind) _ hop) _ _) fun _ =>
      h.pure rfl
  · exact h.bind (h.histogramCode _ _ _) fun _ => h.pure rfl

end Composable

end Lowering
end SegKernel
