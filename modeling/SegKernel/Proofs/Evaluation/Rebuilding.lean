import SegKernel.Proofs.Evaluation.Folding

/-! Expressions that are built anew by the constructors that fold. An operand that is folded away need
    not have had a value, so a rebuilt expression can have a value where the original has none. Where the
    original has a value, the rebuilt expression has the same one. -/

namespace SegKernel

namespace Value

/-- An operator takes a 64-bit integer only together with another one. -/
theorem binary_i64_left {op : BinaryOp} {a : Int64} {w v : Value} (h : binary op (.i64 a) w = .ok v) :
    ∃ b, w = .i64 b := by
  cases w with
  | i64 b => exact ⟨b, rfl⟩
  | _ => cases h

theorem binary_i64_right {op : BinaryOp} {b : Int64} {w v : Value} (h : binary op w (.i64 b) = .ok v) :
    ∃ a, w = .i64 a := by
  cases w with
  | i64 a => exact ⟨a, rfl⟩
  | _ => cases h

/-- Two negations cancel, for every type that has one. -/
theorem unary_not_not {u v w : Value} (h : unary .not u = .ok v) (h' : unary .not v = .ok w) : u = w := by
  cases u <;> cases h <;> cases h' <;> simp

theorem convert_i64 (a : Int64) : convert .i64 (.i64 a) = .i64 a :=
  congrArg Value.i64 (Int64.ofInt_toInt a)

end Value

namespace Exp

/-- Wherever the first expression has a value, the second one has the same. -/
def Refines (x y : Exp) : Prop := ∀ scope v, x.eval scope = .ok v → y.eval scope = .ok v

theorem Refines.refl (x : Exp) : x.Refines x := fun _ _ h => h

theorem Refines.trans {x y z : Exp} (h : x.Refines y) (h' : y.Refines z) : x.Refines z :=
  fun scope v hv => h' scope v (h scope v hv)

section
variable {scope : Scope} {x y c : Exp} {v : Value}

/-! ### Where an expression has its value from -/

theorem evalInt_eq_ok {i : Int64} : x.evalInt scope = .ok i ↔ x.eval scope = .ok (.i64 i) := by
  unfold evalInt
  cases x.eval scope with
  | error fault => simp
  | ok v => cases v <;> simp

theorem evalBool_eq_ok {b : Bool} : x.evalBool scope = .ok b ↔ x.eval scope = .ok (.bool b) := by
  unfold evalBool
  cases x.eval scope with
  | error fault => simp
  | ok v => cases v <;> simp

/-- Both operands have values, unless the operator is a connective. -/
theorem eval_binary_eq_ok {op : BinaryOp} (hand : op ≠ .logAnd) (hor : op ≠ .logOr) :
    (binary op x y).eval scope = .ok v ↔
      ∃ a b, x.eval scope = .ok a ∧ y.eval scope = .ok b ∧ Value.binary op a b = .ok v := by
  constructor
  · intro h
    cases hx : x.eval scope with
    | error fault => cases op <;> simp only [eval, hx, reduceCtorEq] at h
    | ok a =>
      cases hy : y.eval scope with
      | error fault => cases op <;> simp only [eval, hx, hy, reduceCtorEq] at h <;> contradiction
      | ok b => exact ⟨a, b, rfl, rfl, eval_binary hand hor hx hy ▸ h⟩
  · rintro ⟨a, b, hx, hy, h⟩
    rw [eval_binary hand hor hx hy, h]

theorem eval_compare_eq_ok {op : Comparison} : (compare op x y).eval scope = .ok v ↔
    ∃ a b, x.eval scope = .ok a ∧ y.eval scope = .ok b ∧ Value.comparison op a b = .ok v := by
  simp only [eval, bind, Except.bind]
  cases x.eval scope <;> cases y.eval scope <;> simp

theorem eval_unary_eq_ok {op : UnaryOp} :
    (unary op x).eval scope = .ok v ↔ ∃ a, x.eval scope = .ok a ∧ Value.unary op a = .ok v := by
  simp only [eval, bind, Except.bind]
  cases x.eval scope <;> simp

theorem eval_convert_eq_ok {type : ScalarType} :
    (convert type x).eval scope = .ok v ↔ ∃ a, x.eval scope = .ok a ∧ Value.convert type a = v := by
  simp only [eval, bind, Except.bind]
  cases x.eval scope <;> simp [pure, Except.pure]

theorem eval_bitcast_eq_ok {type : ScalarType} :
    (bitcast type x).eval scope = .ok v ↔ ∃ a, x.eval scope = .ok a ∧ Value.bitcast type a = .ok v := by
  simp only [eval, bind, Except.bind]
  cases x.eval scope <;> simp

/-- The second condition need not have a value where the first one does not hold. -/
theorem eval_logAnd_eq_ok : (binary .logAnd x y).eval scope = .ok v ↔
    ∃ a b, IsBool scope x a ∧ (a = true → IsBool scope y b) ∧ v = .bool (a && b) := by
  constructor
  · intro h
    simp only [eval] at h
    split at h
    · cases h
    · rename_i hx
      split at h
      · rename_i b hy
        cases h
        exact ⟨true, b, hx, fun _ => hy, rfl⟩
      · cases h
      · cases h
    · contradiction
    · rename_i hx
      cases h
      exact ⟨false, false, hx, by simp, rfl⟩
    all_goals contradiction
  · rintro ⟨a, b, hx, hy, rfl⟩
    unfold IsBool at hx hy
    cases a with
    | false => simp only [eval, hx, Bool.false_and]
    | true => simp only [eval, hx, hy rfl, Bool.true_and]

/-- The second condition need not have a value where the first one holds. -/
theorem eval_logOr_eq_ok : (binary .logOr x y).eval scope = .ok v ↔
    ∃ a b, IsBool scope x a ∧ (a = false → IsBool scope y b) ∧ v = .bool (a || b) := by
  constructor
  · intro h
    simp only [eval] at h
    split at h
    · cases h
    · contradiction
    · rename_i hx
      split at h
      · rename_i b hy
        cases h
        exact ⟨false, b, hx, fun _ => hy, rfl⟩
      · cases h
      · cases h
    · contradiction
    · rename_i hx
      cases h
      exact ⟨true, false, hx, by simp, rfl⟩
    all_goals contradiction
  · rintro ⟨a, b, hx, hy, rfl⟩
    unfold IsBool at hx hy
    cases a with
    | true => simp only [eval, hx, Bool.true_or]
    | false => simp only [eval, hx, hy rfl, Bool.false_or]

/-- The operand that is not chosen need not have a value. -/
theorem eval_select_eq_ok : (select c x y).eval scope = .ok v ↔
    ∃ b, IsBool scope c b ∧ (if b then x else y).eval scope = .ok v := by
  constructor
  · intro h
    simp only [eval] at h
    split at h
    · exact ⟨true, ‹_›, h⟩
    · exact ⟨false, ‹_›, h⟩
    · cases h
    · cases h
  · rintro ⟨b, hc, h⟩
    unfold IsBool at hc
    cases b <;> simpa only [eval, hc, if_true, Bool.false_eq_true, if_false] using h

end

/-! ### A constructor and the expression that it stands for -/

section
variable (x y c : Exp)

/-- An operator is left as it is if neither operand is an integer constant. -/
theorem apply_eq_binary {op : BinaryOp} {x y : Exp} (hx : x.int? = none) (hy : y.int? = none) :
    apply op x y = binary op x y := by
  have hunit : unitOperand op x y = none := by cases op <;> simp [unitOperand, hx, hy]
  rw [apply, folded?, hx, hunit]
  rfl

/-- A constant operand fixes the type of the other one, so what holds of `i64` is all that is needed. -/
theorem apply_refines {op : BinaryOp} (hand : op ≠ .logAnd) (hor : op ≠ .logOr) :
    (binary op x y).Refines (apply op x y) := by
  intro scope v h
  obtain ⟨a, b, hx, hy, hv⟩ := (eval_binary_eq_ok hand hor).mp h
  cases hcx : x.int? with
  | some i =>
    rw [eval_of_int? hcx] at hx
    cases hx
    obtain ⟨j, rfl⟩ := Value.binary_i64_left hv
    rw [eval_apply hand hor (eval_of_int? hcx) hy, hv]
  | none =>
    cases hcy : y.int? with
    | some j =>
      rw [eval_of_int? hcy] at hy
      cases hy
      obtain ⟨i, rfl⟩ := Value.binary_i64_right hv
      rw [eval_apply hand hor hx (eval_of_int? hcy), hv]
    | none => rwa [apply_eq_binary hcx hcy]

theorem test_refines (op : Comparison) : (compare op x y).Refines (test op x y) := by
  intro scope v h
  obtain ⟨a, b, hx, hy, hv⟩ := eval_compare_eq_ok.mp h
  unfold test
  split
  · rename_i i j hi hj
    rw [eval_of_int? hi] at hx
    rw [eval_of_int? hj] at hy
    cases hx
    cases hy
    exact hv
  · exact h

theorem both_refines : (binary .logAnd x y).Refines (x.both y) := by
  intro scope v h
  obtain ⟨a, b, hx, hy, rfl⟩ := eval_logAnd_eq_ok.mp h
  exact hx.both hy

theorem either_refines : (binary .logOr x y).Refines (x.either y) := by
  intro scope v h
  obtain ⟨a, b, hx, hy, rfl⟩ := eval_logOr_eq_ok.mp h
  exact hx.either hy

theorem negation_refines : (unary .not x).Refines x.negation := by
  intro scope v h
  unfold negation
  split
  · exact h
  · rename_i y
    obtain ⟨b, hb, hv⟩ := eval_unary_eq_ok.mp h
    obtain ⟨a, ha, hb⟩ := eval_unary_eq_ok.mp hb
    rw [ha, Value.unary_not_not hb hv]
  · exact h

theorem choose_refines : (select c x y).Refines (c.choose x y) := by
  intro scope v h
  obtain ⟨b, hc, hv⟩ := eval_select_eq_ok.mp h
  unfold choose
  split
  · rename_i hb
    obtain rfl := IsBool.unique (eval_of_bool? hb) hc
    exact hv
  · rename_i hb
    obtain rfl := IsBool.unique (eval_of_bool? hb) hc
    exact hv
  · exact h

theorem toType_refines (type : ScalarType) : (convert type x).Refines (x.toType type) := by
  intro scope v h
  obtain ⟨a, ha, rfl⟩ := eval_convert_eq_ok.mp h
  unfold toType
  split
  · rename_i i hi
    split
    · rename_i htype
      subst htype
      rw [eval_of_int? hi] at ha
      cases ha
      rw [Value.convert_i64]
      rfl
    · exact h
  · exact h

end

/-! ### Refined operands -/

namespace Refines
variable {x x' y y' c c' : Exp}

theorem binary (op : BinaryOp) (hx : x.Refines x') (hy : y.Refines y') :
    (Exp.binary op x y).Refines (.binary op x' y') := by
  intro scope v h
  by_cases hand : op = .logAnd
  · subst hand
    obtain ⟨a, b, ha, hb, rfl⟩ := eval_logAnd_eq_ok.mp h
    exact eval_logAnd_eq_ok.mpr ⟨a, b, hx _ _ ha, fun e => hy _ _ (hb e), rfl⟩
  · by_cases hor : op = .logOr
    · subst hor
      obtain ⟨a, b, ha, hb, rfl⟩ := eval_logOr_eq_ok.mp h
      exact eval_logOr_eq_ok.mpr ⟨a, b, hx _ _ ha, fun e => hy _ _ (hb e), rfl⟩
    · obtain ⟨a, b, ha, hb, hv⟩ := (eval_binary_eq_ok hand hor).mp h
      exact (eval_binary_eq_ok hand hor).mpr ⟨a, b, hx _ _ ha, hy _ _ hb, hv⟩

theorem compare (op : Comparison) (hx : x.Refines x') (hy : y.Refines y') :
    (Exp.compare op x y).Refines (.compare op x' y') := by
  intro scope v h
  obtain ⟨a, b, ha, hb, hv⟩ := eval_compare_eq_ok.mp h
  exact eval_compare_eq_ok.mpr ⟨a, b, hx _ _ ha, hy _ _ hb, hv⟩

theorem unary (op : UnaryOp) (hx : x.Refines x') : (Exp.unary op x).Refines (.unary op x') := by
  intro scope v h
  obtain ⟨a, ha, hv⟩ := eval_unary_eq_ok.mp h
  exact eval_unary_eq_ok.mpr ⟨a, hx _ _ ha, hv⟩

theorem convert (type : ScalarType) (hx : x.Refines x') : (Exp.convert type x).Refines (.convert type x') := by
  intro scope v h
  obtain ⟨a, ha, hv⟩ := eval_convert_eq_ok.mp h
  exact eval_convert_eq_ok.mpr ⟨a, hx _ _ ha, hv⟩

theorem bitcast (type : ScalarType) (hx : x.Refines x') : (Exp.bitcast type x).Refines (.bitcast type x') := by
  intro scope v h
  obtain ⟨a, ha, hv⟩ := eval_bitcast_eq_ok.mp h
  exact eval_bitcast_eq_ok.mpr ⟨a, hx _ _ ha, hv⟩

theorem select (hc : c.Refines c') (hx : x.Refines x') (hy : y.Refines y') :
    (Exp.select c x y).Refines (.select c' x' y') := by
  intro scope v h
  obtain ⟨b, hb, hv⟩ := eval_select_eq_ok.mp h
  refine eval_select_eq_ok.mpr ⟨b, hc _ _ hb, ?_⟩
  cases b with
  | true => exact hx _ _ hv
  | false => exact hy _ _ hv

end Refines

/-! ### Rebuilding -/

/-- The constructor of an operator. -/
def construct (op : BinaryOp) (x y : Exp) : Exp :=
  match op with
  | .logAnd => x.both y
  | .logOr => x.either y
  | op => apply op x y

/-- The constructor of an operator of one operand; only negations are folded. -/
def constructUnary (op : UnaryOp) (x : Exp) : Exp :=
  match op with
  | .not => x.negation
  | op => unary op x

/-- The expression built anew from its leaves on. -/
def built : Exp → Exp
  | var name => var name
  | const v => const v
  | binary op x y => construct op x.built y.built
  | compare op x y => test op x.built y.built
  | unary op x => constructUnary op x.built
  | convert type x => x.built.toType type
  | bitcast type x => bitcast type x.built
  | select c x y => c.built.choose x.built y.built

theorem construct_refines (op : BinaryOp) (x y : Exp) : (binary op x y).Refines (construct op x y) := by
  cases op with
  | logAnd => exact both_refines x y
  | logOr => exact either_refines x y
  | _ => exact apply_refines x y (by simp) (by simp)

theorem constructUnary_refines (op : UnaryOp) (x : Exp) : (unary op x).Refines (constructUnary op x) := by
  cases op with
  | not => exact negation_refines x
  | _ => exact Refines.refl _

/-- A rebuilt expression has the value of the original. -/
theorem refines_built (x : Exp) : x.Refines x.built := by
  induction x with
  | var name => exact Refines.refl _
  | const v => exact Refines.refl _
  | binary op x y hx hy => exact (hx.binary op hy).trans (construct_refines op _ _)
  | compare op x y hx hy => exact (hx.compare op hy).trans (test_refines _ _ op)
  | unary op x hx => exact (hx.unary op).trans (constructUnary_refines op _)
  | convert type x hx => exact (hx.convert type).trans (toType_refines _ type)
  | bitcast type x hx => exact hx.bitcast type
  | select c x y hc hx hy => exact (hc.select hx hy).trans (choose_refines _ _ _)

/-- The original fails on the variable without a value that the rebuilt condition does not look at. -/
example : let x := binary .logOr (.var "unset") (.binary .logOr (.var "unset") (.bool true))
    x.built = .bool true ∧ (x.eval fun _ => none) = .error (.unknownVariable "unset") := ⟨by decide, rfl⟩

namespace Refines
variable {x y : Exp} {scope : Scope}

theorem evalInt (h : x.Refines y) {i : Int64} (hx : x.evalInt scope = .ok i) : y.evalInt scope = .ok i :=
  evalInt_eq_ok.mpr (h _ _ (evalInt_eq_ok.mp hx))

theorem evalBool (h : x.Refines y) {b : Bool} (hx : x.evalBool scope = .ok b) : y.evalBool scope = .ok b :=
  evalBool_eq_ok.mpr (h _ _ (evalBool_eq_ok.mp hx))

end Refines

end Exp
end SegKernel
