import Mathlib.Data.List.Forall2
import SegKernel.Exp.Eval
import SegKernel.Seg.Basic

/-! The variables of an expression are all that its value depends on, and replacing them by expressions
    is the same as giving them the values of these. -/

namespace SegKernel

theorem Exp.eval_congr {σ τ : Scope} : ∀ {x : Exp}, (∀ y ∈ x.occurrences, σ y = τ y) → x.eval σ = x.eval τ
  | .var name, h => by
    have := h name (List.mem_singleton_self name)
    simp only [eval, this]
  | .const _, _ => rfl
  | .binary op x y, h => by
    have hx := eval_congr (x := x) fun z hz => h z (List.mem_append_left _ hz)
    have hy := eval_congr (x := y) fun z hz => h z (List.mem_append_right _ hz)
    simp only [eval, hx, hy]
  | .compare op x y, h => by
    have hx := eval_congr (x := x) fun z hz => h z (List.mem_append_left _ hz)
    have hy := eval_congr (x := y) fun z hz => h z (List.mem_append_right _ hz)
    simp only [eval, hx, hy]
  | .unary op x, h => by
    have hx := eval_congr (x := x) h
    simp only [eval, hx]
  | .convert type x, h => by
    have hx := eval_congr (x := x) h
    simp only [eval, hx]
  | .bitcast type x, h => by
    have hx := eval_congr (x := x) h
    simp only [eval, hx]
  | .select c t e, h => by
    have hc := eval_congr (x := c) fun z hz => h z (List.mem_append_left _ (List.mem_append_left _ hz))
    have ht := eval_congr (x := t) fun z hz => h z (List.mem_append_left _ (List.mem_append_right _ hz))
    have he := eval_congr (x := e) fun z hz => h z (List.mem_append_right _ hz)
    simp only [eval, hc, ht, he]

namespace Exp

/-- The replaced variables have the values of the expressions for them. -/
def Replaces (scope : Scope) (σ : Ident → Option Exp) (inner : Scope) : Prop :=
  ∀ name, match σ name with
    | some x => ∃ v, x.eval scope = .ok v ∧ inner name = some v
    | none => inner name = scope name

theorem eval_substitute {scope inner : Scope} {σ : Ident → Option Exp} (h : Replaces scope σ inner) (x : Exp) :
    (x.substitute σ).eval scope = x.eval inner := by
  induction x with
  | var name =>
    have hname := h name
    rw [substitute, eval]
    cases hσ : σ name with
    | none =>
      rw [hσ] at hname
      rw [Option.getD_none, eval, hname]
    | some y =>
      rw [hσ] at hname
      obtain ⟨v, hv, hinner⟩ := hname
      rw [Option.getD_some, hv, hinner]
  | const v => rfl
  | binary op x y ihx ihy => simp only [substitute, eval, ihx, ihy]
  | compare op x y ihx ihy => simp only [substitute, eval, ihx, ihy]
  | unary op x ih => simp only [substitute, eval, ih]
  | convert type x ih => simp only [substitute, eval, ih]
  | bitcast type x ih => simp only [substitute, eval, ih]
  | select c t e ihc iht ihe => simp only [substitute, eval, ihc, iht, ihe]

end Exp

/-! ## Applying lambdas

Applying a lambda to expressions replaces its parameters. The result has the value that the lambda has
when its parameters are bound to the values of the operands. -/

namespace Exp

/-- The expressions have the values, in this order. -/
abbrev Values (scope : Scope) (xs : List Exp) (vs : List Value) : Prop :=
  List.Forall₂ (fun x v => x.eval scope = .ok v) xs vs

end Exp

namespace Lambda
open Exp

/-- The value of a parameter, if the name is one; the last parameter of a name counts. -/
def argument (l : Lambda) (xs ys : List Value) (name : Ident) : Option Value :=
  (((l.left.zip xs) ++ (l.right.zip ys)).reverse.find? (·.1.name == name)).map (·.2)

/-- What the results of a lambda see: its parameters, and what surrounds it. -/
def scope (l : Lambda) (outer : Scope) (xs ys : List Value) : Scope := fun name =>
  (l.argument xs ys name).or (outer name)

/-- The lambda combines two tuples into a third one. -/
def Combines (l : Lambda) (outer : Scope) (xs ys zs : List Value) : Prop := Values (l.scope outer xs ys) l.results zs

section WellFormed
variable {l : Lambda}

theorem length_params (h : l.isWellFormed = true) : l.params.length = 2 * l.arity := by
  rw [isWellFormed, Bool.and_eq_true, beq_iff_eq] at h
  exact h.1

theorem length_left (h : l.isWellFormed = true) : l.left.length = l.arity := by
  have := length_params h
  rw [left, List.length_take]
  omega

theorem length_right (h : l.isWellFormed = true) : l.right.length = l.arity := by
  have := length_params h
  rw [right, List.length_drop]
  omega

theorem length_resultTypes (h : l.isWellFormed = true) : l.resultTypes.length = l.arity := by
  rw [resultTypes, List.length_map, length_left h]

end WellFormed

variable {scope : Scope}

/-- Operands and their values are looked up in the same places. -/
theorem lookup_values (params : List Param) {es : List Exp} {vs : List Value} (h : Values scope es vs) :
    List.Forall₂ (fun (p : Param × Exp) (q : Param × Value) => p.1 = q.1 ∧ p.2.eval scope = .ok q.2)
      (params.zip es) (params.zip vs) := by
  induction h generalizing params with
  | nil => simp
  | cons hv _ ih =>
    cases params with
    | nil => simp
    | cons p params =>
      rw [List.zip_cons_cons, List.zip_cons_cons]
      exact .cons ⟨rfl, hv⟩ (ih params)

theorem find?_values {ps : List (Param × Exp)} {qs : List (Param × Value)} (name : Ident)
    (h : List.Forall₂ (fun p q => p.1 = q.1 ∧ p.2.eval scope = .ok q.2) ps qs) :
    match ps.find? (·.1.name == name) with
    | some p => ∃ q, qs.find? (·.1.name == name) = some q ∧ p.2.eval scope = .ok q.2
    | none => qs.find? (·.1.name == name) = none := by
  induction h with
  | nil => rfl
  | @cons p q ps qs hpq hrest ih =>
    rw [List.find?_cons, List.find?_cons, ← hpq.1]
    cases p.1.name == name with
    | true => exact ⟨q, rfl, hpq.2⟩
    | false => exact ih

/-- The parameters are replaced by operands with values. -/
theorem replaces_substitution (l : Lambda) {xs ys : List Exp} {vs ws : List Value} (hx : Values scope xs vs)
    (hy : Values scope ys ws) : Replaces scope (l.substitution xs ys) (l.scope scope vs ws) := by
  intro name
  have h := find?_values name (List.forall₂_reverse_iff.mpr
    (List.rel_append (lookup_values l.left hx) (lookup_values l.right hy)))
  unfold substitution Lambda.scope argument
  cases hfind : ((l.left.zip xs ++ l.right.zip ys).reverse).find? (·.1.name == name) with
  | none =>
    rw [hfind] at h
    dsimp only at h
    rw [h]
    rfl
  | some p =>
    rw [hfind] at h
    obtain ⟨q, hq, hv⟩ := h
    exact ⟨q.2, hv, by rw [hq]; rfl⟩

/-- An application has the values that the lambda has on the values of the operands. -/
theorem values_apply {l : Lambda} {xs ys : List Exp} {vs ws zs : List Value} (hx : Values scope xs vs)
    (hy : Values scope ys ws) (h : l.Combines scope vs ws zs) : Values scope (l.apply xs ys) zs := by
  refine List.forall₂_map_left_iff.mpr ?_
  refine h.imp fun x v hv => ?_
  rwa [eval_substitute (l.replaces_substitution hx hy)]

/-- What surrounds a lambda counts only for the variables that are no parameters. -/
theorem Combines.congr {l : Lambda} {outer outer' : Scope} {xs ys zs : List Value}
    (h : ∀ x ∈ l.results, ∀ name ∈ x.occurrences, l.argument xs ys name = none → outer name = outer' name)
    (hc : l.Combines outer xs ys zs) : l.Combines outer' xs ys zs := by
  have results : ∀ (rs : List Exp) (zs : List Value), (∀ x ∈ rs, x ∈ l.results) →
      Values (l.scope outer xs ys) rs zs → Values (l.scope outer' xs ys) rs zs := by
    intro rs zs hmem hvalues
    induction hvalues with
    | nil => exact .nil
    | @cons x v rs zs hv _ ih =>
      refine .cons ?_ (ih fun y hy => hmem y (List.mem_cons_of_mem x hy))
      rw [← hv]
      refine (eval_congr fun name hname => ?_).symm
      unfold Lambda.scope
      cases ha : l.argument xs ys name with
      | some v => rfl
      | none => exact h x (hmem x List.mem_cons_self) name hname ha
  exact results l.results zs (fun _ => id) hc

end Lambda
end SegKernel
