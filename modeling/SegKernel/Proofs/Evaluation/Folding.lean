import Mathlib.Algebra.Group.Int.Defs
import Mathlib.Algebra.Group.Nat.Defs
import SegKernel.Exp.Eval

/-! 64-bit integers as integers. An operation that does not leave the range of 64 bits gives what the
    operation on integers gives. -/

namespace SegKernel

/-- The integers that 64 bits can hold. -/
def Fits (i : Int) : Prop := -9223372036854775808 ≤ i ∧ i ≤ 9223372036854775807

theorem fits_toInt (a : Int64) : Fits a.toInt := ⟨Int64.le_toInt a, Int64.toInt_le a⟩

theorem toInt_ofInt_of_fits {i : Int} (h : Fits i) : (Int64.ofInt i).toInt = i :=
  Int64.toInt_ofInt_of_le h.1 (Int.lt_of_le_of_lt h.2 (by decide))

theorem toInt_add_of_fits {a b : Int64} (h : Fits (a.toInt + b.toInt)) : (a + b).toInt = a.toInt + b.toInt := by
  rw [← toInt_ofInt_of_fits h, Int64.ofInt_add, Int64.ofInt_toInt, Int64.ofInt_toInt]

theorem toInt_sub_of_fits {a b : Int64} (h : Fits (a.toInt - b.toInt)) : (a - b).toInt = a.toInt - b.toInt := by
  rw [← toInt_ofInt_of_fits h, Int64.ofInt_sub, Int64.ofInt_toInt, Int64.ofInt_toInt]

theorem toInt_mul_of_fits {a b : Int64} (h : Fits (a.toInt * b.toInt)) : (a * b).toInt = a.toInt * b.toInt := by
  rw [← toInt_ofInt_of_fits h, Int64.ofInt_mul, Int64.ofInt_toInt, Int64.ofInt_toInt]

theorem toInt_div_of_fits {a b : Int64} (h : Fits (a.toInt.tdiv b.toInt)) :
    (a / b).toInt = a.toInt.tdiv b.toInt := by
  rw [← toInt_ofInt_of_fits h, Int64.ofInt_tdiv (fits_toInt a).1 (fits_toInt a).2 (fits_toInt b).1 (fits_toInt b).2,
    Int64.ofInt_toInt, Int64.ofInt_toInt]

/-- A quotient by a positive number fits. -/
theorem fits_tdiv {i j : Int} (hi : Fits i) (hj : 0 < j) : Fits (i.tdiv j) := by
  have bounds : ∀ i : Int, 0 ≤ i → 0 ≤ i.tdiv j ∧ i.tdiv j ≤ i := fun i hi => by
    rw [Int.tdiv_eq_ediv_of_nonneg hi]
    exact ⟨Int.ediv_nonneg hi (by omega), Int.ediv_le_self j hi⟩
  unfold Fits at hi ⊢
  rcases Int.le_total 0 i with hsign | hsign
  · have := bounds i hsign
    omega
  · have := bounds (-i) (by omega)
    rw [Int.neg_tdiv] at this
    omega

theorem toInt_ofNat_of_fits {n : Nat} (h : Fits n) : (Int64.ofNat n).toInt = n := by
  rw [← Int64.ofInt_eq_ofNat, toInt_ofInt_of_fits h]

theorem toInt_min (a b : Int64) : (min a b).toInt = min a.toInt b.toInt := by
  show (if a ≤ b then a else b).toInt = _
  by_cases h : a ≤ b
  · rw [if_pos h, Int.min_eq_left (Int64.le_iff_toInt_le.mp h)]
  · rw [if_neg h, Int.min_eq_right]
    rw [Int64.le_iff_toInt_le] at h
    omega

theorem toInt_max (a b : Int64) : (max a b).toInt = max a.toInt b.toInt := by
  show (if a ≤ b then b else a).toInt = _
  by_cases h : a ≤ b
  · rw [if_pos h, Int.max_eq_right (Int64.le_iff_toInt_le.mp h)]
  · rw [if_neg h, Int.max_eq_left]
    rw [Int64.le_iff_toInt_le] at h
    omega

theorem toNat_toBitVec_of_nonneg {a : Int64} (ha : 0 ≤ a.toInt) : (a.toBitVec.toNat : Int) = a.toInt := by
  rw [← Int64.toInt_toBitVec, BitVec.toInt_eq_toNat_of_msb]
  rw [← Int64.toInt_toBitVec] at ha
  exact Bool.eq_false_iff.mpr fun h => absurd (BitVec.toInt_neg_of_msb_true h) (by omega)

/-- The remainder by a power of two is what its low bits say. -/
theorem toInt_and_of_isPowerOfTwo {a m : Int64} {n : Nat} (ha : 0 ≤ a.toInt) (hn : n.isPowerOfTwo)
    (hm : m.toInt = (n : Int) - 1) : (a &&& m).toInt = a.toInt % n := by
  obtain ⟨k, rfl⟩ := hn
  have nonneg : ∀ b : Int64, 0 ≤ b.toInt → b.toInt = b.toBitVec.toNat := fun b hb => (toNat_toBitVec_of_nonneg hb).symm
  have hpos : 0 < 2 ^ k := Nat.pos_of_ne_zero (by simp)
  have hm' : m.toBitVec.toNat = 2 ^ k - 1 := by
    have := nonneg m (by omega)
    omega
  have hand : (a &&& m).toBitVec.toNat = a.toBitVec.toNat % 2 ^ k := by
    rw [Int64.toBitVec_and, BitVec.toNat_and, hm', Nat.and_two_pow_sub_one_eq_mod]
  have hlt : a.toBitVec.toNat < 2 ^ 63 := by
    have := nonneg a ha
    have := a.toInt_lt
    omega
  rw [nonneg a ha, ← Int64.toInt_toBitVec, BitVec.toInt_eq_toNat_of_lt, hand]
  · rfl
  · rw [hand]
    have := Nat.mod_le a.toBitVec.toNat (2 ^ k)
    omega

/-- Doubling a power of two, also past the range of 64 bits. -/
theorem ofNat_pow_mul_two (k : Nat) : Int64.ofNat (2 ^ k) * 2 = Int64.ofNat (2 ^ (k + 1)) := by
  rw [Nat.pow_succ, Int64.ofNat_mul]
  rfl

/-- A number without the low bits is a multiple, also where the mask covers all bits. -/
theorem dvd_of_and_mask {a : Int64} {k : Nat} (ha : 0 ≤ a.toInt) (h : a &&& (2 * Int64.ofNat (2 ^ k) - 1) = 0) :
    2 ^ (k + 1) ∣ a.toInt.toNat := by
  have hmask : 2 * Int64.ofNat (2 ^ k) = Int64.ofNat (2 ^ (k + 1)) := by
    rw [Int64.mul_comm, ofNat_pow_mul_two]
  rw [hmask] at h
  have hbits := congrArg (fun x : Int64 => x.toBitVec.toNat) h
  have hnat := toNat_toBitVec_of_nonneg ha
  simp only [Int64.toBitVec_and, Int64.toBitVec_sub, BitVec.toNat_and] at hbits
  have hlt : a.toBitVec.toNat < 2 ^ 64 := a.toBitVec.isLt
  have hmaskNat : ((Int64.ofNat (2 ^ (k + 1))).toBitVec - (1 : Int64).toBitVec).toNat = 2 ^ min (k + 1) 64 - 1 := by
    have hone : (1 : Int64).toBitVec.toNat = 1 := rfl
    have hpow : (Int64.ofNat (2 ^ (k + 1))).toBitVec.toNat = 2 ^ (k + 1) % 2 ^ 64 := rfl
    rw [BitVec.toNat_sub, hone, hpow]
    by_cases hk : k + 1 < 64
    · have hle : 2 ^ (k + 1) < 2 ^ 64 := Nat.pow_lt_pow_right (by omega) hk
      have hpos : 0 < 2 ^ (k + 1) := Nat.pow_pos (by omega)
      rw [Nat.min_eq_left (by omega), Nat.mod_eq_of_lt hle]
      omega
    · have hdvd : 2 ^ 64 ∣ 2 ^ (k + 1) := Nat.pow_dvd_pow 2 (by omega)
      have hzero : 2 ^ (k + 1) % 2 ^ 64 = 0 := Nat.mod_eq_zero_of_dvd hdvd
      rw [Nat.min_eq_right (by omega)]
      omega
  rw [hmaskNat, Nat.and_two_pow_sub_one_eq_mod] at hbits
  have hdvd : 2 ^ min (k + 1) 64 ∣ a.toBitVec.toNat := Nat.dvd_of_mod_eq_zero hbits
  rw [← hnat, Int.toNat_natCast]
  -- A mask of at least 64 bits leaves nothing but zero.
  by_cases hk : k + 1 ≤ 64
  · rwa [Nat.min_eq_left hk] at hdvd
  · rw [Nat.min_eq_right (by omega)] at hdvd
    rw [Nat.eq_zero_of_dvd_of_lt hdvd hlt]
    exact Nat.dvd_zero _

/-! ## Folding constructors

The folding constructors on 64-bit integers and on conditions. Where the operands have values, a folded
expression has the value that the operator gives. -/

namespace Exp
variable {scope : Scope} {x y : Exp}

/-! ### Folding -/

theorem eval_of_int? {v : Int64} (h : x.int? = some v) : x.eval scope = .ok (.i64 v) := by
  unfold int? at h
  split at h
  · cases h
    rfl
  · cases h

theorem eval_of_bool? {b : Bool} (h : x.bool? = some b) : x.eval scope = .ok (.bool b) := by
  unfold bool? at h
  split at h
  · cases h
    rfl
  · cases h

theorem inRange_eq_some {i : Int} {v : Int64} (h : inRange i = some v) : v = Int64.ofInt i := by
  unfold inRange at h
  split at h
  · exact (Option.some.inj h).symm
  · cases h

/-- Constants are folded to what the device computes. -/
theorem foldInts_eq_some {op : BinaryOp} {a b v : Int64} (h : foldInts op a b = some v) :
    Value.integerOp op a b = .ok v := by
  have ha := fits_toInt a
  have hb := fits_toInt b
  -- Where the exact result fits, it is the one that wraps around.
  cases op with
  | add =>
    rw [inRange_eq_some h, Int64.ofInt_add, Int64.ofInt_toInt, Int64.ofInt_toInt]
    rfl
  | sub =>
    rw [inRange_eq_some h, Int64.ofInt_sub, Int64.ofInt_toInt, Int64.ofInt_toInt]
    rfl
  | mul =>
    rw [inRange_eq_some h, Int64.ofInt_mul, Int64.ofInt_toInt, Int64.ofInt_toInt]
    rfl
  | div =>
    simp only [foldInts] at h
    split at h
    · cases h
    · rename_i hb0
      rw [inRange_eq_some h, Int64.ofInt_tdiv ha.1 ha.2 hb.1 hb.2, Int64.ofInt_toInt, Int64.ofInt_toInt]
      exact if_neg hb0
  | mod =>
    simp only [foldInts] at h
    split at h
    · cases h
    · rename_i hb0
      rw [not_or] at hb0
      rw [inRange_eq_some h, Int64.ofInt_tmod ha.1 ha.2 hb.1 hb.2, Int64.ofInt_toInt, Int64.ofInt_toInt]
      exact if_neg hb0.1
  | min => rw [← Option.some.inj h]; rfl
  | max => rw [← Option.some.inj h]; rfl
  | _ => cases h

theorem eval_binary {op : BinaryOp} {v w : Value} (hand : op ≠ .logAnd) (hor : op ≠ .logOr)
    (hx : x.eval scope = .ok v) (hy : y.eval scope = .ok w) :
    (binary op x y).eval scope = Value.binary op v w := by
  cases op with
  | logAnd => exact absurd rfl hand
  | logOr => exact absurd rfl hor
  | _ => simp only [eval, hx, hy]

/-- An operand that is left alone has the value of the whole. -/
theorem eval_unitOperand {op : BinaryOp} {z : Exp} {a b : Int64} (hx : x.eval scope = .ok (.i64 a))
    (hy : y.eval scope = .ok (.i64 b)) (h : unitOperand op x y = some z) :
    z.eval scope = Value.binary op (.i64 a) (.i64 b) := by
  -- The other operand is a literal, so its value is known.
  have const : ∀ {u : Exp} {c d : Int64}, u.eval scope = .ok (.i64 d) → u.int? = some c → d = c := by
    intro u c d hu hc
    rw [eval_of_int? hc] at hu
    cases hu
    rfl
  cases op with
  | add =>
    simp only [unitOperand] at h
    split at h
    · cases h
      rw [hy, const hx ‹_›]
      simp [Value.binary, Value.integerOp, Except.map]
    · split at h
      · cases h
        rw [hx, const hy ‹_›]
        simp [Value.binary, Value.integerOp, Except.map]
      · cases h
  | sub =>
    simp only [unitOperand] at h
    split at h
    · cases h
      rw [hx, const hy ‹_›]
      simp [Value.binary, Value.integerOp, Except.map]
    · cases h
  | mul =>
    simp only [unitOperand] at h
    split at h
    · cases h
      rw [hy, const hx ‹_›]
      simp [Value.binary, Value.integerOp, Except.map]
    · split at h
      · cases h
        rw [hx, const hy ‹_›]
        simp [Value.binary, Value.integerOp, Except.map]
      · cases h
  | div =>
    simp only [unitOperand] at h
    split at h
    · cases h
      rw [hx, const hy ‹_›]
      simp [Value.binary, Value.integerOp, Except.map]
    · cases h
  | _ => cases h

/-- Applying an operator to two integers. -/
theorem eval_apply {op : BinaryOp} {a b : Int64} (hand : op ≠ .logAnd) (hor : op ≠ .logOr)
    (hx : x.eval scope = .ok (.i64 a)) (hy : y.eval scope = .ok (.i64 b)) :
    (apply op x y).eval scope = Value.binary op (.i64 a) (.i64 b) := by
  unfold apply
  split
  · rename_i v h
    unfold folded? at h
    split at h
    · rename_i a' b' ha hb
      rw [eval_of_int? ha] at hx
      rw [eval_of_int? hb] at hy
      cases hx
      cases hy
      show Except.ok (Value.i64 v) = Except.map Value.i64 (Value.integerOp op a b)
      rw [foldInts_eq_some h]
      rfl
    · cases h
  · cases h : unitOperand op x y with
    | none => exact eval_binary hand hor hx hy
    | some z => exact eval_unitOperand hx hy h

/-! ### Expressions with a known value -/

/-- The expression has an integer as its value. -/
def IsInt (scope : Scope) (x : Exp) (i : Int) : Prop := ∃ a : Int64, x.eval scope = .ok (.i64 a) ∧ a.toInt = i

/-- The expression is a condition with a known answer. -/
def IsBool (scope : Scope) (x : Exp) (b : Bool) : Prop := x.eval scope = .ok (.bool b)

namespace IsInt
variable {i j : Int}

theorem evalInt (h : IsInt scope x i) : ∃ a : Int64, x.evalInt scope = .ok a ∧ a.toInt = i := by
  obtain ⟨a, ha, rfl⟩ := h
  exact ⟨a, by rw [Exp.evalInt, ha], rfl⟩

theorem fits (h : IsInt scope x i) : Fits i := by
  obtain ⟨a, -, rfl⟩ := h
  exact fits_toInt a

theorem unique (h : IsInt scope x i) (h' : IsInt scope x j) : i = j := by
  obtain ⟨a, ha, rfl⟩ := h
  obtain ⟨b, hb, rfl⟩ := h'
  rw [ha] at hb
  cases hb
  rfl

theorem int (v : Int64) : IsInt scope (.int v) v.toInt := ⟨v, rfl, rfl⟩

theorem var {name : Ident} {a : Int64} (h : scope name = some (.i64 a)) : IsInt scope (.var name) a.toInt :=
  ⟨a, by rw [eval, h], rfl⟩

theorem var_nat {name : Ident} {n : Nat} (h : scope name = some (.i64 (Int64.ofNat n))) (hn : Fits (n : Int)) :
    IsInt scope (.var name) n := by
  have := var h
  rwa [toInt_ofNat_of_fits hn] at this

theorem add (hx : IsInt scope x i) (hy : IsInt scope y j) (h : Fits (i + j)) : IsInt scope (x + y) (i + j) := by
  obtain ⟨a, ha, rfl⟩ := hx
  obtain ⟨b, hb, rfl⟩ := hy
  exact ⟨a + b, eval_apply (by simp) (by simp) ha hb, toInt_add_of_fits h⟩

theorem sub (hx : IsInt scope x i) (hy : IsInt scope y j) (h : Fits (i - j)) : IsInt scope (x - y) (i - j) := by
  obtain ⟨a, ha, rfl⟩ := hx
  obtain ⟨b, hb, rfl⟩ := hy
  exact ⟨a - b, eval_apply (by simp) (by simp) ha hb, toInt_sub_of_fits h⟩

theorem mul (hx : IsInt scope x i) (hy : IsInt scope y j) (h : Fits (i * j)) : IsInt scope (x * y) (i * j) := by
  obtain ⟨a, ha, rfl⟩ := hx
  obtain ⟨b, hb, rfl⟩ := hy
  exact ⟨a * b, eval_apply (by simp) (by simp) ha hb, toInt_mul_of_fits h⟩

/-- The quotient by a positive integer. -/
theorem tdiv (hx : IsInt scope x i) (hy : IsInt scope y j) (hj : 0 < j) : IsInt scope (x / y) (i.tdiv j) := by
  obtain ⟨a, ha, rfl⟩ := hx
  obtain ⟨b, hb, rfl⟩ := hy
  have hne : b ≠ 0 := by
    rintro rfl
    exact absurd hj (by decide)
  refine ⟨a / b, (eval_apply (show BinaryOp.div ≠ .logAnd by simp) (by simp) ha hb).trans ?_,
    toInt_div_of_fits (fits_tdiv (fits_toInt a) hj)⟩
  simp [Value.binary, Value.integerOp, hne, Except.map]

/-- The quotient of an integer that is not negative by a positive one. -/
theorem div (hx : IsInt scope x i) (hy : IsInt scope y j) (hi : 0 ≤ i) (hj : 0 < j) :
    IsInt scope (x / y) (i / j) :=
  Int.tdiv_eq_ediv_of_nonneg hi ▸ hx.tdiv hy hj

/-- The remainder of an integer that is not negative by a positive one. -/
theorem mod (hx : IsInt scope x i) (hy : IsInt scope y j) (hi : 0 ≤ i) (hj : 0 < j) :
    IsInt scope (x % y) (i % j) := by
  obtain ⟨a, ha, rfl⟩ := hx
  obtain ⟨b, hb, rfl⟩ := hy
  have hne : b ≠ 0 := by
    rintro rfl
    exact absurd hj (by decide)
  refine ⟨a % b, (eval_apply (show BinaryOp.mod ≠ .logAnd by simp) (by simp) ha hb).trans ?_, ?_⟩
  · simp [Value.binary, Value.integerOp, hne, Except.map]
  · rw [Int64.toInt_mod, Int.tmod_eq_emod_of_nonneg hi]

theorem minimum (hx : IsInt scope x i) (hy : IsInt scope y j) : IsInt scope (x.minimum y) (min i j) := by
  obtain ⟨a, ha, rfl⟩ := hx
  obtain ⟨b, hb, rfl⟩ := hy
  exact ⟨min a b, eval_apply (by simp) (by simp) ha hb, toInt_min a b⟩

theorem maximum (hx : IsInt scope x i) (hy : IsInt scope y j) : IsInt scope (x.maximum y) (max i j) := by
  obtain ⟨a, ha, rfl⟩ := hx
  obtain ⟨b, hb, rfl⟩ := hy
  exact ⟨max a b, eval_apply (by simp) (by simp) ha hb, toInt_max a b⟩

/-- The bits below a power of two. -/
theorem bitAnd {n : Nat} (hx : IsInt scope x i) (hy : IsInt scope y ((n : Int) - 1)) (hi : 0 ≤ i)
    (hn : n.isPowerOfTwo) : IsInt scope (x.bitAnd y) (i % n) := by
  obtain ⟨a, ha, rfl⟩ := hx
  obtain ⟨b, hb, hb'⟩ := hy
  exact ⟨a &&& b, eval_apply (by simp) (by simp) ha hb, toInt_and_of_isPowerOfTwo hi hn hb'⟩

/-- The quotient rounded up. -/
theorem divUp {a b : Nat} (hx : IsInt scope x a) (hy : IsInt scope y b) (hb : 0 < b) (h : Fits (a + b)) :
    IsInt scope (x.divUp y) (((a + b - 1) / b : Nat) : Int) := by
  have hfits : Fits ((a : Int) + b - 1) := by
    unfold Fits at *
    omega
  have := ((hx.add hy h).sub (IsInt.int 1) hfits).div hy (by show 0 ≤ (a : Int) + b - 1; omega) (by omega)
  have e : (((a + b - 1) / b : Nat) : Int) = ((a : Int) + b - 1) / b := by
    rw [Int.natCast_ediv, show ((a + b - 1 : Nat) : Int) = (a : Int) + b - 1 by omega]
  rw [e]
  exact this

end IsInt

namespace IsBool
variable {a b : Bool}

theorem evalBool (h : IsBool scope x a) : x.evalBool scope = .ok a := by
  rw [Exp.evalBool, h]

theorem unique (h : IsBool scope x a) (h' : IsBool scope x b) : a = b := by
  rw [IsBool, h] at h'
  cases h'
  rfl

theorem bool (b : Bool) : IsBool scope (.bool b) b := rfl

theorem test {op : Comparison} {i j : Int} (hx : IsInt scope x i) (hy : IsInt scope y j) :
    IsBool scope (test op x y) (op.holds (some (Ord.compare i j))) := by
  obtain ⟨a, ha, rfl⟩ := hx
  obtain ⟨b, hb, rfl⟩ := hy
  unfold IsBool Exp.test
  split
  · rename_i a' b' ha' hb'
    rw [eval_of_int? ha'] at ha
    rw [eval_of_int? hb'] at hb
    cases ha
    cases hb
    rfl
  · simp only [eval, ha, hb]
    rfl

theorem lt {i j : Int} (hx : IsInt scope x i) (hy : IsInt scope y j) : IsBool scope (x.lt y) (decide (i < j)) := by
  have h : IsBool scope (x.lt y) _ := test hx hy
  rwa [show Comparison.lt.holds (some (Ord.compare i j)) = decide (i < j) by
    rw [Bool.eq_iff_iff]
    simp [Comparison.holds, Int.compare_eq_lt]] at h

theorem le {i j : Int} (hx : IsInt scope x i) (hy : IsInt scope y j) : IsBool scope (x.le y) (decide (i ≤ j)) := by
  have h : IsBool scope (x.le y) _ := test hx hy
  rwa [show Comparison.le.holds (some (Ord.compare i j)) = decide (i ≤ j) by
    rw [Bool.eq_iff_iff]
    simp [Comparison.holds, Int.compare_eq_lt, Int.le_iff_lt_or_eq]] at h

theorem gt {i j : Int} (hx : IsInt scope x i) (hy : IsInt scope y j) : IsBool scope (x.gt y) (decide (j < i)) := by
  have h : IsBool scope (x.gt y) _ := test hx hy
  rwa [show Comparison.gt.holds (some (Ord.compare i j)) = decide (j < i) by
    rw [Bool.eq_iff_iff]
    simp [Comparison.holds, Int.compare_eq_gt]] at h

theorem equals {i j : Int} (hx : IsInt scope x i) (hy : IsInt scope y j) :
    IsBool scope (x.equals y) (decide (i = j)) := by
  have h : IsBool scope (x.equals y) _ := test hx hy
  rwa [show Comparison.eq.holds (some (Ord.compare i j)) = decide (i = j) by
    rw [Bool.eq_iff_iff]
    simp [Comparison.holds]] at h

/-- The second condition counts only where the first one holds. -/
theorem both (hx : IsBool scope x a) (hy : a = true → IsBool scope y b) : IsBool scope (x.both y) (a && b) := by
  unfold Exp.both
  split
  · have h : x.bool? = some true := ‹_›
    obtain rfl : true = a := unique (eval_of_bool? h) hx
    exact hy rfl
  · have h : y.bool? = some true := ‹_›
    cases a with
    | false => exact hx
    | true =>
      obtain rfl : true = b := unique (eval_of_bool? h) (hy rfl)
      exact hx
  · have h : x.bool? = some false := ‹_›
    obtain rfl : false = a := unique (eval_of_bool? h) hx
    exact bool false
  · have h : y.bool? = some false := ‹_›
    cases a with
    | false => exact bool false
    | true =>
      obtain rfl : false = b := unique (eval_of_bool? h) (hy rfl)
      exact bool false
  · unfold IsBool at *
    cases a with
    | false => simp only [eval, hx, Bool.false_and]
    | true => simp only [eval, hx, hy rfl, Bool.true_and]

/-- The second condition counts only where the first one does not hold. -/
theorem either (hx : IsBool scope x a) (hy : a = false → IsBool scope y b) : IsBool scope (x.either y) (a || b) := by
  unfold Exp.either
  split
  · have h : x.bool? = some false := ‹_›
    obtain rfl : false = a := unique (eval_of_bool? h) hx
    exact hy rfl
  · have h : y.bool? = some false := ‹_›
    cases a with
    | true => exact hx
    | false =>
      obtain rfl : false = b := unique (eval_of_bool? h) (hy rfl)
      exact hx
  · have h : x.bool? = some true := ‹_›
    obtain rfl : true = a := unique (eval_of_bool? h) hx
    exact bool true
  · have h : y.bool? = some true := ‹_›
    cases a with
    | true => exact bool true
    | false =>
      obtain rfl : true = b := unique (eval_of_bool? h) (hy rfl)
      exact bool true
  · unfold IsBool at *
    cases a with
    | true => simp only [eval, hx, Bool.true_or]
    | false => simp only [eval, hx, hy rfl, Bool.false_or]

theorem negation (hx : IsBool scope x a) : IsBool scope x.negation (!a) := by
  unfold Exp.negation
  split
  · cases hx
    rfl
  · rename_i y
    unfold IsBool at *
    simp only [eval] at hx
    cases h : y.eval scope with
    | error e =>
      rw [h] at hx
      cases hx
    | ok v =>
      rw [h] at hx
      cases v with
      | bool b =>
        obtain rfl : (!b) = a := by
          cases hx
          rfl
        rw [Bool.not_not]
      | _ => cases hx
  · unfold IsBool at *
    simp only [eval, hx]
    rfl

/-- All conditions of a list hold. -/
theorem all {conditions : List Exp} {p : Exp → Bool} (h : ∀ c ∈ conditions, IsBool scope c (p c)) :
    IsBool scope (.all conditions) (conditions.all p) := by
  have fold : ∀ (l : List Exp) (x : Exp) (a : Bool), IsBool scope x a → (∀ c ∈ l, IsBool scope c (p c)) →
      IsBool scope (l.foldl Exp.both x) (a && l.all p) := by
    intro l
    induction l with
    | nil =>
      intro x a hx _
      simpa using hx
    | cons c l ih =>
      intro x a hx hl
      have := ih _ _ (hx.both fun _ => hl c List.mem_cons_self) fun d hd => hl d (List.mem_cons_of_mem c hd)
      rwa [List.all_cons, ← Bool.and_assoc]
  have := fold conditions (.bool true) true (bool true) h
  rwa [Bool.true_and] at this

end IsBool

/-- The chosen operand, where both have values. -/
theorem eval_choose {c : Exp} {b : Bool} {v w : Value} (hc : IsBool scope c b) (hx : x.eval scope = .ok v)
    (hy : y.eval scope = .ok w) : (c.choose x y).eval scope = .ok (if b then v else w) := by
  unfold choose
  split
  · rename_i h
    obtain rfl := IsBool.unique (eval_of_bool? h) hc
    exact hx
  · rename_i h
    obtain rfl := IsBool.unique (eval_of_bool? h) hc
    exact hy
  · unfold IsBool at hc
    simp only [eval, hc]
    cases b <;> assumption

end Exp
end SegKernel
