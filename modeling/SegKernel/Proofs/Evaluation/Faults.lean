import SegKernel.Exp.Eval

/-! How the evaluation of an expression can fail: values do not fit an operator, a divisor is zero, or a
    variable of the expression has no value. -/

namespace SegKernel

/-- If there is a fault, it is in `E`. -/
def FaultsIn {α : Type} (E : Fault → Prop) (r : Except Fault α) : Prop := ∀ fault, r = .error fault → E fault

namespace FaultsIn
variable {α β : Type} {E F : Fault → Prop} {r : Except Fault α}

theorem ok (a : α) : FaultsIn E (.ok a : Except Fault α) := by
  intro fault h
  cases h

theorem error {fault : Fault} (h : E fault) : FaultsIn E (.error fault : Except Fault α) := by
  intro fault' h'
  cases h'
  exact h

theorem imp (h : FaultsIn E r) (hE : ∀ fault, E fault → F fault) : FaultsIn F r := fun fault hr => hE fault (h fault hr)

theorem map (h : FaultsIn E r) (f : α → β) : FaultsIn E (r.map f) := by
  cases r with
  | ok a => exact ok (f a)
  | error fault => exact error (h fault rfl)

theorem bind {f : α → Except Fault β} (h : FaultsIn E r) (hf : ∀ a, FaultsIn E (f a)) : FaultsIn E (r >>= f) := by
  cases r with
  | ok a => exact hf a
  | error fault => exact error (h fault rfl)

end FaultsIn

/-! ### Values -/

/-- The faults that come from values alone. -/
inductive Fault.OfValues : Fault → Prop
  | typeMismatch (cause : Mismatch) : OfValues (.typeMismatch cause)
  | divisionByZero : OfValues .divisionByZero

namespace Value
open FaultsIn Fault.OfValues

theorem integerOp_faults {α : Type} [Add α] [Sub α] [Mul α] [Div α] [Mod α] [Min α] [Max α] [AndOp α] [OrOp α]
    [XorOp α] [ShiftLeft α] [ShiftRight α] [OfNat α 0] [DecidableEq α] (op : BinaryOp) (a b : α) :
    FaultsIn Fault.OfValues (integerOp op a b) := by
  have byZero : ∀ c : α, FaultsIn Fault.OfValues (if b = 0 then .error .divisionByZero else .ok c) := by
    intro c
    split
    · exact error divisionByZero
    · exact ok c
  cases op with
  | div => exact byZero _
  | mod => exact byZero _
  | logAnd => exact error (typeMismatch _)
  | logOr => exact error (typeMismatch _)
  | _ => exact ok _

theorem floatOp_faults (f : FloatFormat) (op : BinaryOp) (a b : Nat) : FaultsIn Fault.OfValues (floatOp f op a b) := by
  unfold floatOp
  split
  case h_8 => exact error (typeMismatch _)
  all_goals exact ok _

theorem booleanOp_faults (op : BinaryOp) (a b : Bool) : FaultsIn Fault.OfValues (booleanOp op a b) := by
  unfold booleanOp
  split
  case h_8 => exact error (typeMismatch _)
  all_goals exact ok _

theorem binary_faults (op : BinaryOp) (x y : Value) : FaultsIn Fault.OfValues (binary op x y) := by
  unfold binary
  split
  · exact (booleanOp_faults op _ _).map _
  · exact (integerOp_faults op _ _).map _
  · exact (integerOp_faults op _ _).map _
  · exact (integerOp_faults op _ _).map _
  · exact (integerOp_faults op _ _).map _
  · exact (floatOp_faults _ op _ _).map _
  · exact (floatOp_faults _ op _ _).map _
  · exact error (typeMismatch _)

theorem comparison_faults (op : Comparison) (x y : Value) : FaultsIn Fault.OfValues (comparison op x y) := by
  refine map ?_ _
  unfold ordering
  split
  case h_8 => exact error (typeMismatch _)
  all_goals exact ok _

theorem unary_faults (op : UnaryOp) (x : Value) : FaultsIn Fault.OfValues (unary op x) := by
  unfold unary
  split
  case h_16 => exact error (typeMismatch _)
  all_goals exact ok _

theorem bitcast_faults (type : ScalarType) (x : Value) : FaultsIn Fault.OfValues (bitcast type x) := by
  unfold bitcast
  split
  · exact ok _
  · exact error (typeMismatch _)

end Value

/-! ### Expressions -/

namespace Exp

/-- The faults of an expression in a scope. -/
inductive Fails (σ : Scope) (x : Exp) : Fault → Prop
  | values {fault : Fault} (h : fault.OfValues) : Fails σ x fault
  | unbound {name : Ident} (hname : name ∈ x.occurrences) (hσ : σ name = none) : Fails σ x (.unknownVariable name)

theorem Fails.mono {σ : Scope} {x y : Exp} {fault : Fault} (h : x.Fails σ fault) (hxy : x.occurrences ⊆ y.occurrences) :
    y.Fails σ fault := by
  cases h with
  | values h => exact .values h
  | unbound hname hσ => exact .unbound (hxy hname) hσ

section
open FaultsIn Fails Fault.OfValues
variable (σ : Scope)

theorem eval_faults : ∀ x : Exp, FaultsIn (x.Fails σ) (x.eval σ)
  | .var name => by
    rw [eval]
    split
    · exact ok _
    · exact error (unbound (List.mem_singleton_self name) ‹_›)
  | .const v => by
    rw [eval]
    exact ok v
  | .binary op x y => by
    have hx : FaultsIn ((binary op x y).Fails σ) (x.eval σ) :=
      (eval_faults x).imp fun _ h => h.mono (List.subset_append_left _ _)
    have hy : FaultsIn ((binary op x y).Fails σ) (y.eval σ) :=
      (eval_faults y).imp fun _ h => h.mono (List.subset_append_right _ _)
    have mismatch : ∀ cause, FaultsIn ((binary op x y).Fails σ) (.error (.typeMismatch cause) : Except Fault Value) :=
      fun cause => error (values (typeMismatch cause))
    simp only [eval]
    split
    · exact error (hx _ ‹_›)
    · split
      · exact ok _
      · exact mismatch _
      · exact error (hy _ ‹_›)
    · split
      · exact ok _
      · exact mismatch _
      · exact error (hy _ ‹_›)
    · exact ok _
    · exact ok _
    · exact mismatch _
    · exact mismatch _
    · split
      · exact (Value.binary_faults _ _ _).imp fun _ => values
      · exact error (hy _ ‹_›)
  -- Both sides of a comparison are evaluated first.
  | .compare op x y => by
    rw [eval]
    refine ((eval_faults x).imp fun _ h => h.mono (List.subset_append_left _ _)).bind fun a => ?_
    refine ((eval_faults y).imp fun _ h => h.mono (List.subset_append_right _ _)).bind fun b => ?_
    exact (Value.comparison_faults op a b).imp fun _ => values
  | .unary op x => by
    have hx : FaultsIn ((unary op x).Fails σ) (x.eval σ) := (eval_faults x).imp fun _ h => h.mono fun _ hz => hz
    rw [eval]
    exact hx.bind fun a => (Value.unary_faults op a).imp fun _ => values
  | .convert type x => by
    have hx : FaultsIn ((convert type x).Fails σ) (x.eval σ) := (eval_faults x).imp fun _ h => h.mono fun _ hz => hz
    rw [eval]
    exact hx.bind fun a => ok _
  | .bitcast type x => by
    have hx : FaultsIn ((bitcast type x).Fails σ) (x.eval σ) := (eval_faults x).imp fun _ h => h.mono fun _ hz => hz
    rw [eval]
    exact hx.bind fun a => (Value.bitcast_faults type a).imp fun _ => values
  | .select c t e => by
    have hc : FaultsIn ((select c t e).Fails σ) (c.eval σ) := (eval_faults c).imp fun _ h =>
      h.mono (List.Subset.trans (List.subset_append_left _ _) (List.subset_append_left _ _))
    have ht : FaultsIn ((select c t e).Fails σ) (t.eval σ) := (eval_faults t).imp fun _ h =>
      h.mono (List.Subset.trans (List.subset_append_right _ _) (List.subset_append_left _ _))
    have he : FaultsIn ((select c t e).Fails σ) (e.eval σ) := (eval_faults e).imp fun _ h =>
      h.mono (List.subset_append_right _ _)
    rw [eval]
    split
    · exact ht
    · exact he
    · exact error (values (typeMismatch _))
    · exact error (hc _ ‹_›)

theorem evalInt_faults (x : Exp) : FaultsIn (x.Fails σ) (x.evalInt σ) := by
  unfold evalInt
  split
  · exact ok _
  · exact error (values (typeMismatch _))
  · exact error (eval_faults σ x _ ‹_›)

theorem evalBool_faults (x : Exp) : FaultsIn (x.Fails σ) (x.evalBool σ) := by
  unfold evalBool
  split
  · exact ok _
  · exact error (values (typeMismatch _))
  · exact error (eval_faults σ x _ ‹_›)

end
end Exp
end SegKernel
