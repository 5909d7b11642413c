import Mathlib.Data.Int.ModEq
import SegKernel.Proofs.Evaluation.Folding
import SegKernel.Proofs.Evaluation.Rebuilding

/-! The folding constructors on 64-bit integers, where a result may leave the range of 64 bits and wraps
    around. -/

namespace SegKernel

/-- The integer that a value is. -/
def Value.integer? : Value → Option Int
  | .i32 v => some v.toInt
  | .i64 v => some v.toInt
  | .u32 v => some v.toNat
  | .u64 v => some v.toNat
  | .bool _ | .f32 _ | .f64 _ => none

namespace Exp
variable {scope : Scope} {x y : Exp} {a b : Int64}

theorem eval_int (v : Int64) : (int v).eval scope = .ok (.i64 v) := rfl

theorem eval_add (hx : x.eval scope = .ok (.i64 a)) (hy : y.eval scope = .ok (.i64 b)) :
    (x + y).eval scope = .ok (.i64 (a + b)) := eval_apply (by simp) (by simp) hx hy

theorem eval_sub (hx : x.eval scope = .ok (.i64 a)) (hy : y.eval scope = .ok (.i64 b)) :
    (x - y).eval scope = .ok (.i64 (a - b)) := eval_apply (by simp) (by simp) hx hy

theorem eval_mul (hx : x.eval scope = .ok (.i64 a)) (hy : y.eval scope = .ok (.i64 b)) :
    (x * y).eval scope = .ok (.i64 (a * b)) := eval_apply (by simp) (by simp) hx hy

theorem eval_min (hx : x.eval scope = .ok (.i64 a)) (hy : y.eval scope = .ok (.i64 b)) :
    (x.minimum y).eval scope = .ok (.i64 (min a b)) := eval_apply (by simp) (by simp) hx hy

theorem eval_div (hx : x.eval scope = .ok (.i64 a)) (hy : y.eval scope = .ok (.i64 b)) (hb : b ≠ 0) :
    (x / y).eval scope = .ok (.i64 (a / b)) := by
  refine (eval_apply (show BinaryOp.div ≠ .logAnd by simp) (by simp) hx hy).trans ?_
  simp [Value.binary, Value.integerOp, hb, Except.map]

theorem eval_mod (hx : x.eval scope = .ok (.i64 a)) (hy : y.eval scope = .ok (.i64 b)) (hb : b ≠ 0) :
    (x % y).eval scope = .ok (.i64 (a % b)) := by
  refine (eval_apply (show BinaryOp.mod ≠ .logAnd by simp) (by simp) hx hy).trans ?_
  simp [Value.binary, Value.integerOp, hb, Except.map]

theorem eval_divUp (hx : x.eval scope = .ok (.i64 a)) (hy : y.eval scope = .ok (.i64 b)) (hb : b ≠ 0) :
    (x.divUp y).eval scope = .ok (.i64 ((a + b - 1) / b)) := eval_div (eval_sub (eval_add hx hy) (eval_int 1)) hy hb

theorem eval_var {name : Ident} {v : Value} (h : scope name = some v) : (var name).eval scope = .ok v := by
  rw [eval, h]

theorem eval_bitAnd (hx : x.eval scope = .ok (.i64 a)) (hy : y.eval scope = .ok (.i64 b)) :
    (x.bitAnd y).eval scope = .ok (.i64 (a &&& b)) := eval_apply (by simp) (by simp) hx hy

theorem isInt_of_eval (hx : x.eval scope = .ok (.i64 a)) : IsInt scope x a.toInt := ⟨a, hx, rfl⟩

theorem IsInt.eval {i : Int} (h : IsInt scope x i) : x.eval scope = .ok (.i64 (Int64.ofInt i)) := by
  obtain ⟨a, ha, rfl⟩ := h
  rw [ha, Int64.ofInt_toInt]

/-- A conjunction that holds has two conditions that hold. -/
theorem evalBool_both (h : (x.both y).evalBool scope = .ok true) :
    x.evalBool scope = .ok true ∧ y.evalBool scope = .ok true := by
  have holds : ∀ {z : Exp}, z.evalBool scope = .ok true → z.eval scope = .ok (.bool true) := by
    intro z hz
    unfold evalBool at hz
    split at hz
    · cases hz
      assumption
    · cases hz
    · cases hz
  have const : ∀ {z : Exp}, z.bool? = some true → z.evalBool scope = .ok true := fun hz => by
    rw [evalBool, eval_of_bool? hz]
  unfold both at h
  split at h
  · exact ⟨const ‹_›, h⟩
  · exact ⟨h, const ‹_›⟩
  · cases h
  · cases h
  -- Nothing has been simplified: the second condition is evaluated only if the first one holds.
  · have hxy := holds h
    cases hx : x.eval scope with
    | error fault =>
      simp only [eval, hx] at hxy
      cases hxy
    | ok v =>
      cases v with
      | bool b =>
        cases b with
        | false =>
          simp only [eval, hx] at hxy
          cases hxy
        | true =>
          simp only [eval, hx] at hxy
          split at hxy
          · rename_i hy
            cases hxy
            exact ⟨by rw [evalBool, hx], by rw [evalBool, hy]⟩
          · cases hxy
          · cases hxy
      | _ =>
        simp only [eval, hx] at hxy
        cases hxy

end Exp

/-! ## Integers of all widths

A value of an integer type stands for an integer, and conversions and 64-bit arithmetic keep that
integer up to multiples of a power of two. -/
namespace Value

/-- The value of a type that an integer wraps to. -/
def Wraps (type : ScalarType) (v : Value) (i : Int) : Prop :=
  v.type = type ∧ ∃ z, v.integer? = some z ∧ z ≡ i [ZMOD 2 ^ type.bitWidth]

theorem toNat_emod_modEq {n : Nat} (hn : 0 < n) (i : Int) : (((i % n).toNat % n : Nat) : Int) ≡ i [ZMOD n] := by
  rw [Int.natCast_emod, Int.toNat_of_nonneg (Int.emod_nonneg i (by omega))]
  exact (Int.mod_modEq _ _).trans (Int.mod_modEq _ _)

/-- An integer wraps into an integer type. -/
theorem wraps_ofInt {type : ScalarType} (htype : type.isIntegral = true) (i : Int) : (ofInt type i).Wraps type i := by
  cases type with
  | bool | f32 | f64 => cases htype
  | i32 => exact ⟨rfl, _, rfl, by rw [Int32.toInt_ofInt]; exact Int.bmod_emod⟩
  | i64 => exact ⟨rfl, _, rfl, by rw [Int64.toInt_ofInt]; exact Int.bmod_emod⟩
  | u32 =>
    refine ⟨rfl, _, rfl, ?_⟩
    rw [UInt32.ofInt, UInt32.toNat_ofNat']
    exact toNat_emod_modEq (n := 2 ^ 32) (by omega) i
  | u64 =>
    refine ⟨rfl, _, rfl, ?_⟩
    rw [UInt64.ofInt, UInt64.toNat_ofNat']
    exact toNat_emod_modEq (n := 2 ^ 64) (by omega) i

/-- An integer wraps in the same way by way of 64 bits, which are at least as many as those of the type. -/
theorem wraps_ofInt_word {type : ScalarType} (htype : type.isIntegral = true) (i : Int) :
    (ofInt type (Int64.ofInt i).toInt).Wraps type i := by
  obtain ⟨hv, z, hz, hword⟩ := wraps_ofInt htype (Int64.ofInt i).toInt
  have wrapped : (Int64.ofInt i).toInt ≡ i [ZMOD 2 ^ 64] := by
    rw [Int64.toInt_ofInt]
    exact Int.bmod_emod
  have hwidth : (2 : Int) ^ type.bitWidth ∣ 2 ^ 64 := pow_dvd_pow 2 (by cases type <;> decide)
  exact ⟨hv, z, hz, hword.trans (wrapped.of_dvd hwidth)⟩

/-- There is one value that an integer wraps to. -/
theorem Wraps.unique {type : ScalarType} {v w : Value} {i : Int} (hv : v.Wraps type i) (hw : w.Wraps type i) :
    v = w := by
  obtain ⟨rfl, a, ha, hmod⟩ := hv
  obtain ⟨htype, b, hb, hmod'⟩ := hw
  have same := hmod.trans hmod'.symm
  unfold Int.ModEq at same
  -- The type fixes the constructor of both values; in each, congruent numbers of the range are equal.
  cases v <;> cases w <;> cases htype <;> cases ha <;> cases hb <;> simp only [Value.type, ScalarType.bitWidth] at same
  case i32.i32 x y =>
    have := x.toInt_lt
    have := y.toInt_lt
    have := x.le_toInt
    have := y.le_toInt
    exact congrArg i32 (Int32.toInt_inj.mp (by omega))
  case i64.i64 x y =>
    have := x.toInt_lt
    have := y.toInt_lt
    have := x.le_toInt
    have := y.le_toInt
    exact congrArg i64 (Int64.toInt_inj.mp (by omega))
  case u32.u32 x y =>
    have := x.toNat_lt
    have := y.toNat_lt
    exact congrArg u32 (UInt32.toNat_inj.mp (by omega))
  case u64.u64 x y =>
    have := x.toNat_lt
    have := y.toNat_lt
    exact congrArg u64 (UInt64.toNat_inj.mp (by omega))

/-- A conversion starts from the integer. -/
theorem convert_of_integer? {v : Value} {i : Int} (h : v.integer? = some i) (type : ScalarType) :
    convert type v = ofInt type i := by
  cases v with
  | bool | f32 | f64 => cases h
  | i32 | i64 | u32 | u64 =>
    cases h
    rfl

end Value

namespace Exp
variable {σ : Scope} {x : Exp} {v : Value} {i : Int}

theorem eval_toType (hx : x.eval σ = .ok v) (type : ScalarType) :
    (x.toType type).eval σ = .ok (Value.convert type v) := by
  refine toType_refines x type σ _ ?_
  simp only [eval, hx]
  rfl

/-- The conversion of an integer of any type. -/
theorem eval_toType_of_integer? (hx : x.eval σ = .ok v) (hv : v.integer? = some i) (type : ScalarType) :
    (x.toType type).eval σ = .ok (Value.ofInt type i) := by
  rw [eval_toType hx, Value.convert_of_integer? hv]

/-- The multiple of a step, from a start on, computed in 64 bits. -/
theorem eval_progression {start step : Exp} {u w : Value} {a b : Int} (hstart : start.eval σ = .ok u)
    (hu : u.integer? = some a) (hstep : step.eval σ = .ok w) (hw : w.integer? = some b) (hx : IsInt σ x i) :
    (start.toType .i64 + x * step.toType .i64).eval σ = .ok (.i64 (Int64.ofInt (a + i * b))) := by
  obtain ⟨c, hc, rfl⟩ := hx
  rw [Int64.ofInt_add, Int64.ofInt_mul, Int64.ofInt_toInt]
  exact eval_add (eval_toType_of_integer? hstart hu .i64) (eval_mul hc (eval_toType_of_integer? hstep hw .i64))

end Exp
end SegKernel
