import Mathlib.Data.Nat.Log
import SegKernel.Collective.Reduction
import SegKernel.Proofs.Collectives.Spans
import SegKernel.Proofs.Collectives.Starting

/-! A reduction combines its elements in their order. Each of its steps, inside a wave or across waves, is
    a step of one tree: the first of each pair of neighbours takes in the second one. -/

namespace SegKernel.Collective
open Exp Team

variable {c : Collective} {A : c.Area} {G : Team} {op : c.lambda.Tuple → c.lambda.Tuple → c.lambda.Tuple}
  {B : Nat → Scope} {n : Nat} {own : Nat → Memory} {m₀ : Store} {f : c.Contents}

/-! ### Pairs -/

/-- Whether a number is the first of a pair. -/
theorem isFirstOfPair_isBool {σ : Scope} {id stride : Exp} {a k : Nat} (ha : a < 2 ^ 63) (hk : k < 62)
    (hid : id.eval σ = .ok (.i64 (Int64.ofNat a))) (hstride : stride.eval σ = .ok (.i64 (Int64.ofNat (2 ^ k)))) :
    IsBool σ (isFirstOfPair id stride) (decide (2 ^ (k + 1) ∣ a)) := by
  have hlt : 2 ^ (k + 1) < 2 ^ 63 := Nat.pow_lt_pow_right (by omega) (by omega)
  have hdouble : 2 ^ (k + 1) = 2 * 2 ^ k := by rw [Nat.pow_succ, Nat.mul_comm]
  have hpos : 0 < 2 ^ k := Nat.pow_pos (by omega)
  have hmask : IsInt σ (Exp.int 2 * stride - Exp.int 1) (((2 ^ (k + 1) : Nat) : Int) - 1) := by
    have htwo : IsInt σ (Exp.int 2) 2 := IsInt.int 2
    have hstride : IsInt σ stride (2 ^ k : Nat) := ⟨_, hstride, Squad.toInt_ofNat (by omega)⟩
    have hone : IsInt σ (Exp.int 1) 1 := IsInt.int 1
    have hmul := htwo.mul hstride (by unfold Fits; omega)
    rw [show (2 : Int) * (2 ^ k : Nat) = (2 ^ (k + 1) : Nat) by omega] at hmul
    exact hmul.sub hone (by unfold Fits; omega)
  have hand := IsInt.bitAnd ⟨_, hid, Squad.toInt_ofNat ha⟩ hmask (by omega) ⟨k + 1, rfl⟩
  have htest := IsBool.equals hand (IsInt.int 0)
  rwa [decide_eq_decide.mpr (show ((a : Int) % (2 ^ (k + 1) : Nat) = (0 : Int64).toInt) ↔ 2 ^ (k + 1) ∣ a by
    rw [Int64.toInt_zero, ← Int.natCast_emod, Nat.dvd_iff_mod_eq_zero]
    omega)] at htest

/-- The first of a pair inside a wave is one in the whole group. -/
theorem dvd_mod_width {m k t : Nat} (hk : k < m) : 2 ^ (k + 1) ∣ t % 2 ^ m ↔ 2 ^ (k + 1) ∣ t :=
  Nat.dvd_mod_iff (Nat.pow_dvd_pow 2 (by omega))

/-- The first thread of a wave that is the first of a pair of waves. -/
theorem dvd_div_width {m j t : Nat} : t % 2 ^ m = 0 ∧ 2 ^ (j + 1) ∣ t / 2 ^ m ↔ 2 ^ (m + j + 1) ∣ t := by
  rw [Nat.add_assoc, Nat.pow_add 2 m, ← Nat.dvd_iff_mod_eq_zero]
  constructor
  · rintro ⟨⟨q, rfl⟩, h⟩
    rw [Nat.mul_div_cancel_left _ (Nat.pow_pos (by omega))] at h
    exact Nat.mul_dvd_mul_left _ h
  · rintro ⟨q, rfl⟩
    rw [Nat.mul_assoc, Nat.mul_div_cancel_left _ (Nat.pow_pos (by omega))]
    exact ⟨Nat.dvd_mul_right _ _, Nat.dvd_mul_right _ _⟩

/-! ### One step -/

/-- The contents after the first steps of a reduction of `w` elements of the first region. -/
def reduced (op : c.lambda.Tuple → c.lambda.Tuple → c.lambda.Tuple) (w : Nat) (f : c.Contents) (k : Nat) : c.Contents :=
  fun r e l => if r = 0 then reduceSteps op w (fun e => f 0 e l) k e else f r e l

theorem reduced_zero (w : Nat) : reduced op w f 0 = f := by
  funext r e l
  by_cases hr : r = 0
  · rw [reduced, if_pos hr, hr]
    rfl
  · rw [reduced, if_neg hr]

/-- The threads that take part in a step. -/
def pairs (w k t : Nat) : Bool := decide (2 ^ (k + 1) ∣ t ∧ t + 2 ^ k < w)

theorem does_pair {w k : Nat} (hw : w ≤ G.size) (hhas : ∀ e < w, A.has 0 e) (hA : A.Manned G op B n) {cond : Exp}
    {offset : Ident} {volatile : Bool} (hcond : ∀ t < G.size, IsBool (B t) cond (pairs w k t))
    (hoffset : ∀ t < G.size, B t offset = some (.i64 (Int64.ofNat (2 ^ k)))) :
    G.Does A.covers (G.Knows B own) (A.Filled m₀ (reduced op w f k))
      (.when cond ((c.combine { element := c.launch.ltid } { element := c.launch.ltid }
        { element := c.launch.ltid + .var offset } none volatile).run n).1)
      (G.Knows B own) (A.Filled m₀ (reduced op w f (k + 1))) := by
  have hdouble : 2 ^ (k + 1) = 2 * 2 ^ k := by rw [Nat.pow_succ, Nat.mul_comm]
  have hpos : 0 < 2 ^ k := Nat.pow_pos (by omega)
  have takes : ∀ {t}, pairs w k t = true → 2 ^ (k + 1) ∣ t ∧ t + 2 ^ k < w := of_decide_eq_true
  -- Only where a pair starts does the next step change an element.
  have step : ∀ e l, reduced op w f (k + 1) 0 e l = if 2 * 2 ^ k ∣ e ∧ e + 2 ^ k < w then
      op (reduced op w f k 0 e l) (reduced op w f k 0 (e + 2 ^ k) l) else reduced op w f k 0 e l := by
    intro e l
    simp only [reduced, if_true, reduceSteps, reduceStep]
  refine hA.does_combine _ id id (fun t => t + 2 ^ k) (fun _ => false) hcond
    (fun t ht hp => ⟨hA.localId t ht, hhas t (by have := (takes hp).2; omega)⟩)
    (fun t ht hp => ⟨hA.localId t ht, hhas t (by have := (takes hp).2; omega)⟩)
    (fun t ht hp => ⟨?_, hhas _ (takes hp).2⟩) (fun _ _ _ => rfl) (fun _ _ _ _ _ _ => id)
    (fun t _ t' _ _ _ hne h => hne (congrArg Prod.snd h)) (fun t _ t' _ hp hp' _ h => ?_) (fun t _ hp l _ => ?_)
    fun r e _ hother l _ => ?_
  · rw [Int64.ofNat_add]
    exact eval_add (hA.localId t ht) (eval_var (hoffset t ht))
  · -- Neighbours at this distance are not both first ones.
    have hnext : t' = t + 2 ^ k := congrArg Prod.snd h
    have := (Nat.dvd_add_right (takes hp).1).mp (hnext ▸ (takes hp').1)
    have := Nat.le_of_dvd hpos this
    omega
  · have := step t l
    rw [if_pos (hdouble ▸ takes hp)] at this
    exact this
  · by_cases hr : r = 0
    · subst hr
      have := step e l
      rwa [if_neg fun h => ?_] at this
      exact hother e (by omega) (decide_eq_true (hdouble ▸ h)) rfl
    · simp only [reduced, if_neg hr]

/-! ### Waves -/

/-- The variables of a reduction, as each thread knows them, in waves of `2 ^ m` threads. -/
structure Waves (G : Team) (σ : Nat → Scope) (m : Nat) (wave waveId inWaveId numWaves : Ident) : Prop where
  wave : ∀ t < G.size, σ t wave = some (.i64 (Int64.ofNat (2 ^ m)))
  waveId : ∀ t < G.size, σ t waveId = some (.i64 (Int64.ofNat (t / 2 ^ m)))
  inWaveId : ∀ t < G.size, σ t inWaveId = some (.i64 (Int64.ofNat (t % 2 ^ m)))
  numWaves : ∀ t < G.size, σ t numWaves = some (.i64 (Int64.ofNat ((G.size + 2 ^ m - 1) / 2 ^ m)))

theorem Waves.mono {σ τ : Nat → Scope} {m : Nat} {wave waveId inWaveId numWaves : Ident}
    (h : Waves G σ m wave waveId inWaveId numWaves) (hle : ∀ t < G.size, (σ t).Le (τ t)) :
    Waves G τ m wave waveId inWaveId numWaves where
  wave t ht := hle t ht _ _ (h.wave t ht)
  waveId t ht := hle t ht _ _ (h.waveId t ht)
  inWaveId t ht := hle t ht _ _ (h.inWaveId t ht)
  numWaves t ht := hle t ht _ _ (h.numWaves t ht)

/-- The group and its waves are not so large that the numbers of the reduction leave the range of 64
    bits. -/
structure Waved (G : Team) (m : Nat) : Prop where
  wave : G.ctx.wave = Int64.ofNat (2 ^ m)
  width : m ≤ 62
  size : G.size ≤ 2 ^ 62

theorem Waved.pow_lt {m : Nat} (h : Waved G m) : 2 ^ m < 2 ^ 63 := by
  have := h.width
  exact Nat.pow_lt_pow_right (by omega) (by omega)

/-- Each thread finds its place in the waves. -/
theorem does_waves {m : Nat} (own : Nat → Memory) (hG : Waved G m) (hA : A.Manned G op B n) (K : Slot → Prop)
    (M : Store → Prop) :
    ∃ σ : Nat → Scope,
      G.DoesAll K (G.Knows B own) M [
        .declareInit (numbered "wave" n) .i64 (c.launch.wave.maximum (.int 1)),
        .declareInit (numbered "wave_id" (n + 1)) .i64 (c.launch.ltid / .var (numbered "wave" n)),
        .declareInit (numbered "in_wave_id" (n + 2)) .i64
          (c.launch.ltid - .var (numbered "wave_id" (n + 1)) * .var (numbered "wave" n)),
        .declareInit (numbered "num_waves" (n + 3)) .i64 (c.launch.groupSize.divUp (.var (numbered "wave" n)))]
        (G.Knows σ own) M ∧
      A.Manned G op σ (n + 4) ∧ (∀ t < G.size, (B t).Le (σ t)) ∧
      Waves G σ m (numbered "wave" n) (numbered "wave_id" (n + 1)) (numbered "in_wave_id" (n + 2))
        (numbered "num_waves" (n + 3)) := by
  have hwidth := hG.pow_lt
  have hsize := hG.size
  have hpos : 0 < 2 ^ m := Nat.pow_pos (by omega)
  have hwave0 : Int64.ofNat (2 ^ m) ≠ 0 := fun h => by
    have := congrArg Int64.toInt h
    rw [Squad.toInt_ofNat hwidth, Int64.toInt_zero] at this
    omega
  let σ₁ : Nat → Scope := fun t => (B t).set (numbered "wave" n) (.i64 (Int64.ofNat (2 ^ m)))
  let σ₂ : Nat → Scope := fun t => (σ₁ t).set (numbered "wave_id" (n + 1)) (.i64 (Int64.ofNat (t / 2 ^ m)))
  let σ₃ : Nat → Scope := fun t => (σ₂ t).set (numbered "in_wave_id" (n + 2)) (.i64 (Int64.ofNat (t % 2 ^ m)))
  let σ₄ : Nat → Scope := fun t =>
    (σ₃ t).set (numbered "num_waves" (n + 3)) (.i64 (Int64.ofNat ((G.size + 2 ^ m - 1) / 2 ^ m)))
  have hA₁ : A.Manned G op σ₁ (n + 1) := hA.set (by decide)
  have hA₂ : A.Manned G op σ₂ (n + 2) := hA₁.set (by decide)
  have hA₃ : A.Manned G op σ₃ (n + 3) := hA₂.set (by decide)
  have le₁ : ∀ t < G.size, (B t).Le (σ₁ t) := hA.le_set (by decide)
  have le₂ : ∀ t < G.size, (σ₁ t).Le (σ₂ t) := hA₁.le_set (by decide)
  have le₃ : ∀ t < G.size, (σ₂ t).Le (σ₃ t) := hA₂.le_set (by decide)
  have le₄ : ∀ t < G.size, (σ₃ t).Le (σ₄ t) := hA₃.le_set (by decide)
  have hwave : ∀ t, σ₁ t (numbered "wave" n) = some (.i64 (Int64.ofNat (2 ^ m))) := fun t => Scope.set_self
  have hid : ∀ t, σ₂ t (numbered "wave_id" (n + 1)) = some (.i64 (Int64.ofNat (t / 2 ^ m))) := fun t => Scope.set_self
  have hrest : ∀ t, σ₃ t (numbered "in_wave_id" (n + 2)) = some (.i64 (Int64.ofNat (t % 2 ^ m))) :=
    fun t => Scope.set_self
  have le₂₄ : ∀ t < G.size, (σ₂ t).Le (σ₄ t) := fun t ht => (le₃ t ht).trans (le₄ t ht)
  have le₁₄ : ∀ t < G.size, (σ₁ t).Le (σ₄ t) := fun t ht => (le₂ t ht).trans (le₂₄ t ht)
  -- The four declarations: each reads what those before it have bound.
  refine ⟨σ₄, .cons (hA.declares (by decide) (fun t ht => ?_) fun _ _ => rfl)
    (.cons (hA₁.declares (by decide) (fun t ht => ?_) fun _ _ => rfl)
    (.cons (hA₂.declares (by decide) (fun t ht => ?_) fun _ _ => rfl)
    (Does.single (hA₃.declares (by decide) (fun t ht => ?_) fun _ _ => rfl)))), hA₃.set (by decide),
    fun t ht => (le₁ t ht).trans (le₁₄ t ht), ?_, ?_, ?_, fun t _ => Scope.set_self⟩
  · have hmax := ((isInt_of_eval (hA.wave t ht)).maximum (.int 1)).eval
    rw [hG.wave, Squad.toInt_ofNat hwidth, show (1 : Int64).toInt = 1 from rfl,
      show max ((2 ^ m : Nat) : Int) 1 = (2 ^ m : Nat) by omega, Int64.ofInt_eq_ofNat] at hmax
    exact hmax
  · rw [← Squad.ofNat_div (by omega) hwidth]
    exact eval_div (hA₁.localId t ht) (eval_var (hwave t)) hwave0
  · rw [← Squad.ofNat_sub_div_mul]
    exact eval_sub (hA₂.localId t ht) (eval_mul (eval_var (hid t)) (eval_mono (le₂ t ht) (eval_var (hwave t))))
  · have hpow : 2 ^ m ≤ 2 ^ 62 := Nat.pow_le_pow_right (by omega) hG.width
    rw [← Squad.ofNat_div (by omega) hwidth, ← Squad.ofNat_sub_one (by omega), Int64.ofNat_add, ← hA.groupSize_eq]
    exact eval_divUp (hA₃.groupSize t ht) (eval_mono ((le₂ t ht).trans (le₃ t ht)) (eval_var (hwave t))) hwave0
  · exact fun t ht => le₁₄ t ht _ _ (hwave t)
  · exact fun t ht => le₂₄ t ht _ _ (hid t)
  · exact fun t ht => le₄ t ht _ _ (hrest t)

/-- The number of steps across waves of `2 ^ m` threads. -/
def crossSteps (m size : Nat) : Nat := Nat.clog 2 ((size + 2 ^ m - 1) / 2 ^ m)

theorem waves_le (m size : Nat) : (size + 2 ^ m - 1) / 2 ^ m ≤ size := by
  have hpos : 0 < 2 ^ m := Nat.pow_pos (by omega)
  refine Nat.lt_succ_iff.mp ((Nat.div_lt_iff_lt_mul hpos).mpr ?_)
  have : size * 1 ≤ size * 2 ^ m := Nat.mul_le_mul_left _ hpos
  rw [Nat.succ_mul]
  omega

theorem lt_crossSteps {m size j : Nat} : j < crossSteps m size ↔ 2 ^ j < (size + 2 ^ m - 1) / 2 ^ m :=
  Nat.lt_clog_iff_pow_lt (by omega)

theorem pow_lt_of_lt_crossSteps {m size j : Nat} (h : j < crossSteps m size) : 2 ^ (m + j) < size := by
  have hpos : 0 < 2 ^ m := Nat.pow_pos (by omega)
  have hwaves := lt_crossSteps.mp h
  have hle : 2 ^ m * (2 ^ j + 1) ≤ size + 2 ^ m - 1 := by
    rw [Nat.mul_comm]
    exact (Nat.le_div_iff_mul_le hpos).mp hwaves
  rw [Nat.pow_add]
  rw [Nat.mul_add] at hle
  omega

/-- The steps reach all threads. -/
theorem le_pow_crossSteps (m size : Nat) : size ≤ 2 ^ (m + crossSteps m size) := by
  have hpos : 0 < 2 ^ m := Nat.pow_pos (by omega)
  have hle : (size + 2 ^ m - 1) / 2 ^ m ≤ 2 ^ crossSteps m size := Nat.le_pow_clog (by omega) _
  have := (Nat.div_le_iff_le_mul_add_pred hpos).mp hle
  rw [Nat.pow_add]
  omega

/-! ### Loops -/

/-- Whether a thread has a partner among the first elements. -/
theorem hasPartner_isBool {σ : Scope} {id w : Exp} {offset : Ident} {t o cnt : Nat}
    (hid : id.eval σ = .ok (.i64 (Int64.ofNat t))) (hw : w.eval σ = .ok (.i64 (Int64.ofNat cnt)))
    (hoffset : σ offset = some (.i64 (Int64.ofNat o))) (hto : t + o < 2 ^ 63) (hcnt : cnt < 2 ^ 63) :
    IsBool σ ((id + .var offset).lt w) (decide (t + o < cnt)) := by
  have hsum := eval_add hid (eval_var hoffset)
  rw [← Int64.ofNat_add] at hsum
  have htest := IsBool.lt ⟨_, hsum, Squad.toInt_ofNat hto⟩ ⟨_, hw, Squad.toInt_ofNat hcnt⟩
  simpa only [Int.ofNat_lt] using htest

/-- A distance that doubles ends a loop when it reaches a bound. -/
theorem lt_isBool {σ : Scope} {name bound : Ident} {a b : Nat} (ha : a < 2 ^ 63) (hb : b < 2 ^ 63)
    (hname : σ name = some (.i64 (Int64.ofNat a))) (hbound : σ bound = some (.i64 (Int64.ofNat b))) :
    IsBool σ ((Exp.var name).lt (.var bound)) (decide (a < b)) := by
  have htest := IsBool.lt ⟨_, eval_var hname, Squad.toInt_ofNat ha⟩ ⟨_, eval_var hbound, Squad.toInt_ofNat hb⟩
  simpa only [Int.ofNat_lt] using htest

theorem eval_double {σ : Scope} {name : Ident} {k : Nat} (h : σ name = some (.i64 (Int64.ofNat (2 ^ k)))) :
    (Exp.var name * Exp.int 2).eval σ = .ok (.i64 (Int64.ofNat (2 ^ (k + 1)))) := by
  rw [← ofNat_pow_mul_two]
  exact eval_mul (eval_var h) (eval_int 2)

section Loops
variable (own : Nat → Memory) (m₀ : Store) (f : c.Contents) {τ : Nat → Scope} {m cnt : Nat}
  {wave waveId inWaveId numWaves offset skip : Ident} {w : Exp}

/-- The steps inside the waves. -/
theorem does_inWave (hG : Waved G m) (hcnt : cnt ≤ G.size) (hhas : ∀ e < cnt, A.has 0 e)
    (hA : ∀ v, A.Manned G op (fun t => (τ t).set offset v) n) (hwaves : Waves G τ m wave waveId inWaveId numWaves)
    (hoffset : ∀ t < G.size, τ t offset = none) (hfree : G.ctx.captured[offset]? = none)
    (hw : ∀ t < G.size, w.eval (τ t) = .ok (.i64 (Int64.ofNat cnt))) (hlimit : m ≤ G.ctx.loopLimit) :
    G.Does A.covers (G.Knows (fun t => (τ t).set offset (.i64 1)) own) (A.Filled m₀ (reduced op cnt f 0))
      (.repeatWhile ((Exp.var offset).lt (.var wave)) <| .block [
        .when (((c.launch.ltid + .var offset).lt w).both (isFirstOfPair (.var inWaveId) (.var offset)))
          ((c.combine { element := c.launch.ltid } { element := c.launch.ltid }
            { element := c.launch.ltid + .var offset } none true).run n).1,
        .set offset (.var offset * .int 2)])
      (G.Knows (fun t => (τ t).set offset (.i64 (Int64.ofNat (2 ^ m)))) own) (A.Filled m₀ (reduced op cnt f m)) := by
  have hsize := hG.size
  have hwidth := hG.pow_lt
  let β : Nat → Nat → Scope := fun k t => (τ t).set offset (.i64 (Int64.ofNat (2 ^ k)))
  have le : ∀ k, ∀ t < G.size, (τ t).Le (β k t) := fun k t ht => Scope.le_set (hoffset t ht)
  have hself : ∀ k t, β k t offset = some (.i64 (Int64.ofNat (2 ^ k))) := fun k t => Scope.set_self
  -- After `k` rounds the distance is `2 ^ k`, and the elements are folded in pairs up to that distance.
  refine Does.repeatWhile (T := fun k => G.Knows (β k) own) (M := fun k => A.Filled m₀ (reduced op cnt f k)) (n := m)
    hlimit (fun k hk t ht th hth => ?_) fun k hk => ?_
  · have hlt : 2 ^ k < 2 ^ 63 := Nat.lt_of_le_of_lt (Nat.pow_le_pow_right (by omega) hk) hwidth
    have htest := lt_isBool hlt hwidth (hself k t) (le k t ht _ _ (hwaves.wave t ht))
    rw [decide_eq_decide.mpr (Nat.pow_lt_pow_iff_right (by omega : 1 < 2))] at htest
    exact (htest.mono hth.1).evalBool
  · have hm := hG.width
    have hlt : 2 ^ k < 2 ^ 62 := Nat.pow_lt_pow_right (by omega) (by omega)
    refine does_block.mpr (.cons (does_pair hcnt hhas (hA _) (fun t ht => ?_) fun t _ => hself k t) (Does.single ?_))
    · have hpartner := hasPartner_isBool ((hA (.i64 (Int64.ofNat (2 ^ k)))).localId t ht)
        (eval_mono (le k t ht) (hw t ht)) (hself k t) (by omega) (by omega)
      have hmod : t % 2 ^ m < 2 ^ 63 := by
        have := Nat.mod_le t (2 ^ m)
        omega
      have hfirst := isFirstOfPair_isBool hmod (by omega) (eval_var (le k t ht _ _ (hwaves.inWaveId t ht)))
        (eval_var (hself k t))
      have hboth := hpartner.both fun _ => hfirst
      rwa [show (decide (t + 2 ^ k < cnt) && decide (2 ^ (k + 1) ∣ t % 2 ^ m)) = pairs cnt k t by
        rw [← Bool.decide_and, pairs, decide_eq_decide, dvd_mod_width hk]
        exact And.comm] at hboth
    · refine (Does.set (B := β k) (hA (.i64 1)).unchecked hfree (fun t _ => hself k t)
        (fun t _ => eval_double (hself k t))
        fun _ _ => rfl).imp (fun _ _ _ => id) (fun _ => id) (Knows.forget fun t _ => ?_) fun _ => id
      rw [show β (k + 1) t = (β k t).set offset (.i64 (Int64.ofNat (2 ^ (k + 1)))) from Scope.set_set.symm]
      exact .refl _

/-- The steps across the waves. -/
theorem does_crossWave (fence : Fence) (volatile : Bool) (hG : Waved G m) (hcnt : cnt ≤ G.size)
    (hhas : ∀ e < cnt, A.has 0 e) (hA : ∀ v v', A.Manned G op (fun t => ((τ t).set skip v).set offset v') n)
    (hwaves : Waves G τ m wave waveId inWaveId numWaves) (hoffset : ∀ t < G.size, τ t offset = none)
    (hskip : ∀ t < G.size, τ t skip = none) (hne : skip ≠ offset) (hfree : G.ctx.captured[offset]? = none)
    (hfree' : G.ctx.captured[skip]? = none) (hw : ∀ t < G.size, w.eval (τ t) = .ok (.i64 (Int64.ofNat cnt)))
    (hlimit : crossSteps m G.size ≤ G.ctx.loopLimit) :
    G.Does A.covers (G.Knows (fun t => ((τ t).set skip (.i64 1)).set offset (.i64 (Int64.ofNat (2 ^ m)))) own)
      (A.Filled m₀ (reduced op cnt f m))
      (.repeatWhile ((Exp.var skip).lt (.var numWaves)) <| .block [
        .barrier fence,
        .set offset (.var skip * .var wave),
        .when ((((c.launch.ltid + .var offset).lt w).both ((Exp.var inWaveId).equals (.int 0))).both
          (isFirstOfPair (.var waveId) (.var skip)))
          ((c.combine { element := c.launch.ltid } { element := c.launch.ltid }
            { element := c.launch.ltid + .var offset } none volatile).run n).1,
        .set skip (.var skip * .int 2)])
      (G.Knows τ own) (A.Filled m₀ (reduced op cnt f (m + crossSteps m G.size))) := by
  have hsize := hG.size
  have hwidth := hG.pow_lt
  have hwavesle := waves_le m G.size
  let β : Nat → Nat → Nat → Scope := fun j o t =>
    ((τ t).set skip (.i64 (Int64.ofNat (2 ^ j)))).set offset (.i64 (Int64.ofNat (2 ^ (m + o))))
  have le : ∀ v v', ∀ t < G.size, (τ t).Le (((τ t).set skip v).set offset v') := fun v v' t ht =>
    (Scope.le_set (hskip t ht)).trans (Scope.le_set ((Scope.set_of_ne hne).trans (hoffset t ht)))
  have hskipped : ∀ j o t, β j o t skip = some (.i64 (Int64.ofNat (2 ^ j))) := fun j o t =>
    (Scope.set_of_ne hne.symm).trans Scope.set_self
  have hself : ∀ j o t, β j o t offset = some (.i64 (Int64.ofNat (2 ^ (m + o)))) := fun j o t => Scope.set_self
  have test : ∀ j ≤ crossSteps m G.size, ∀ t < G.size, ∀ th, G.Knows (β j (j - 1)) own t th →
      ((Exp.var skip).lt (.var numWaves)).evalBool (th.scope G.ctx.captured) =
        .ok (decide (j < crossSteps m G.size)) := by
    intro j hj t ht th hth
    have hpow : 2 ^ j < 2 ^ 63 := by
      rcases Nat.eq_zero_or_pos j with rfl | hj0
      · decide
      · have hlast := pow_lt_of_lt_crossSteps (show j - 1 < crossSteps m G.size by omega)
        have : 2 ^ (j - 1) ≤ 2 ^ (m + (j - 1)) := Nat.pow_le_pow_right (by omega) (by omega)
        rw [show j = j - 1 + 1 by omega, Nat.pow_succ]
        omega
    have htest := lt_isBool hpow (by omega) (hskipped j (j - 1) t) (le _ _ t ht _ _ (hwaves.numWaves t ht))
    rw [decide_eq_decide.mpr lt_crossSteps.symm] at htest
    exact (htest.mono hth.1).evalBool
  -- Before the step at `2 ^ j` waves the offset is still that of the step before.
  refine Does.imp (T := G.Knows (β 0 0) own) (M := A.Filled m₀ (reduced op cnt f (m + 0)))
    (Does.repeatWhile (fun j => G.Knows (β j (j - 1)) own) (fun j => A.Filled m₀ (reduced op cnt f (m + j))) hlimit test
      fun j hj => ?_)
    (fun _ _ _ => id) (fun _ => id) (Knows.forget fun t ht => le _ _ t ht) fun _ => id
  have hpow := pow_lt_of_lt_crossSteps hj
  have known : ∀ {x v t}, t < G.size → τ t x = some v → β j j t x = some v := fun ht => le _ _ _ ht _ _
  have setOffset : G.Does A.covers (G.Knows (β j (j - 1)) own) (A.Filled m₀ (reduced op cnt f (m + j)))
      (.set offset (.var skip * .var wave)) (G.Knows (β j j) own) (A.Filled m₀ (reduced op cnt f (m + j))) := by
    have hoffset' : ∀ t < G.size, (Exp.var skip * .var wave).eval (β j (j - 1) t) =
        .ok (.i64 (Int64.ofNat (2 ^ (m + j)))) := by
      intro t ht
      rw [Nat.pow_add, Nat.mul_comm, Int64.ofNat_mul]
      exact eval_mul (eval_var (hskipped j (j - 1) t)) (eval_var (le _ _ t ht _ _ (hwaves.wave t ht)))
    refine (Does.set (hA (.i64 0) (.i64 0)).unchecked hfree (fun t _ => hself j (j - 1) t) hoffset' fun _ _ => rfl).imp
      (fun _ _ _ => id) (fun _ => id) (Knows.forget fun t _ => ?_) fun _ => id
    rw [Scope.set_set]
    exact .refl _
  refine does_block.mpr (.cons does_barrier (.cons setOffset (.cons
    (does_pair hcnt hhas (hA _ _) (fun t ht => ?_) fun t _ => hself j j t) (Does.single ?_))))
  · have hdiv : t / 2 ^ m < 2 ^ 63 := Nat.lt_of_le_of_lt (Nat.div_le_self _ _) (by omega)
    have hmod : t % 2 ^ m < 2 ^ 63 := Nat.lt_of_le_of_lt (Nat.mod_le _ _) (by omega)
    have hpartner := hasPartner_isBool ((hA _ _).localId t ht) (eval_mono (le _ _ t ht) (hw t ht)) (hself j j t)
      (by omega)
      (by omega)
    have hzero : IsBool (β j j t) ((Exp.var inWaveId).equals (.int 0)) (decide (t % 2 ^ m = 0)) := by
      have htest := IsBool.equals ⟨_, eval_var (known ht (hwaves.inWaveId t ht)), Squad.toInt_ofNat hmod⟩ (IsInt.int 0)
      rwa [decide_eq_decide.mpr (show ((t % 2 ^ m : Nat) : Int) = (0 : Int64).toInt ↔ t % 2 ^ m = 0 by
        rw [Int64.toInt_zero]; omega)] at htest
    have hj62 : j < 62 := by
      have : 2 ^ j ≤ 2 ^ (m + j) := Nat.pow_le_pow_right (by omega) (by omega)
      exact (Nat.pow_lt_pow_iff_right (by omega : 1 < 2)).mp (by omega : 2 ^ j < 2 ^ 62)
    have hfirst := isFirstOfPair_isBool hdiv hj62 (eval_var (known ht (hwaves.waveId t ht))) (eval_var (hskipped j j t))
    have hboth := (hpartner.both fun _ => hzero).both fun _ => hfirst
    rwa [show (decide (t + 2 ^ (m + j) < cnt) && decide (t % 2 ^ m = 0) && decide (2 ^ (j + 1) ∣ t / 2 ^ m)) =
        pairs cnt (m + j) t by
      rw [← Bool.decide_and, ← Bool.decide_and, pairs, decide_eq_decide, and_assoc, dvd_div_width]
      exact And.comm] at hboth
  · refine (Does.set (hA (.i64 0) (.i64 0)).unchecked hfree' (fun t _ => hskipped j j t)
      (fun t ht => eval_double (hskipped j j t)) fun _ _ => rfl).imp (fun _ _ _ => id) (fun _ => id)
      (Knows.forget fun t _ => ?_) fun _ => id
    show (β (j + 1) (j + 1 - 1) t).Le ((β j j t).set skip _)
    rw [Nat.add_sub_cancel, Scope.set_comm hne.symm, Scope.set_set]
    exact .refl _

end Loops

/-! ### The whole reduction -/

/-- A reduction makes as many steps as it takes to reach all threads. It reads no other elements than the
    first `cnt`, if the area has no others. -/
theorem reduce_does {m cnt : Nat} (w : Exp) : Fresh.At n (c.reduce w) fun _ code =>
    ∀ (A : c.Area) (G : Team) (op : c.lambda.Tuple → c.lambda.Tuple → c.lambda.Tuple) (B : Nat → Scope) (own : Nat → Memory)
      (m₀ : Store) (f : c.Contents), Waved G m → cnt ≤ G.size → (∀ e < cnt, A.has 0 e) → A.Manned G op B n →
      (∀ t < G.size, w.eval (B t) = .ok (.i64 (Int64.ofNat cnt))) → m ≤ G.ctx.loopLimit →
      crossSteps m G.size ≤ G.ctx.loopLimit →
        G.Does A.covers (G.Knows B own) (A.Filled m₀ f) code (G.Knows B own)
          (A.Filled m₀ (reduced op cnt f (m + crossSteps m G.size))) := by
  refine .take (.take (.take (.take (.take (.take ?_)))))
  refine Fresh.At.bind (P := fun _ code => code = (Fresh.run _ (n + 6)).1) ⟨(combine_obeys _ _ _ none true).1, rfl⟩
    fun m' inStep hm' hin => ?_
  refine Fresh.At.bind (P := fun _ code => code = (Fresh.run _ m').1)
    ⟨(combine_obeys _ _ _ none c.layout.isRows).1, rfl⟩ fun _ crossStep _ hcross => .pure ?_
  subst hin hcross
  intro A G op B own m₀ f hG hcnt hhas hA hw hlimit hlimit'
  obtain ⟨σ, hsetup, hA₄, hle, hwaves⟩ := does_waves own hG hA A.covers (A.Filled m₀ f)
  have hne : numbered "skip_waves" (n + 5) ≠ numbered "offset" (n + 4) := fun h => by
    have := (numbered_inj.mp h).2
    omega
  have hoffset : ∀ t < G.size, σ t (numbered "offset" (n + 4)) = none := fun t ht =>
    (hA₄.before t ht).fresh (by decide) (Nat.le_refl _)
  have hskip : ∀ t < G.size, σ t (numbered "skip_waves" (n + 5)) = none := fun t ht =>
    (hA₄.before t ht).fresh (by decide) (by omega)
  have hfree : ∀ {stem : String}, stem ∈ uniformStems ++ ownStems ++ arrayStems ++ kernelStems → ∀ k,
      G.ctx.captured[numbered stem (n + k)]? = none := fun hstem k => hA.free _ (new_numbered hstem (by omega))
  -- Both loops run in scopes in which the two distances have some values.
  have hA₆ : ∀ v v', A.Manned G op (fun t => ((σ t).set (numbered "skip_waves" (n + 5)) v).set
      (numbered "offset" (n + 4)) v') (n + 6) := by
    intro v v'
    have hA' : A.Manned G op (fun t => ((σ t).set (numbered "offset" (n + 4)) v').set (numbered "skip_waves" (n + 5)) v)
      (n + 6) := (hA₄.set (v := fun _ => v') (by decide)).set (v := fun _ => v) (by decide)
    refine hA'.mono (fun t ht => ?_) (fun t ht => ?_) (Nat.le_refl _)
    · rw [Scope.set_comm hne]
      exact .refl _
    · rw [Scope.set_comm hne]
      exact hA'.before t ht
  let σ₁ : Nat → Scope := fun t => (σ t).set (numbered "offset" (n + 4)) (.i64 1)
  have hA₅ : A.Manned G op σ₁ (n + 5) := hA₄.set (by decide)
  have declareOffset : G.Does A.covers (G.Knows σ own) (A.Filled m₀ f)
      (.declareInit (numbered "offset" (n + 4)) .i64 (.int 1)) (G.Knows σ₁ own) (A.Filled m₀ f) :=
    hA₄.declares (by decide) (fun _ _ => rfl) fun _ _ => rfl
  have declareSkip : G.Does A.covers (G.Knows σ₁ own) (A.Filled m₀ f)
      (.declareInit (numbered "skip_waves" (n + 5)) .i64 (.int 1))
      (G.Knows (fun t => (σ₁ t).set (numbered "skip_waves" (n + 5)) (.i64 1)) own) (A.Filled m₀ f) :=
    hA₅.declares (by decide) (fun _ _ => rfl) fun _ _ => rfl
  have inWave := does_inWave own m₀ f hG hcnt hhas (hA₆ (.i64 1)) (hwaves.mono fun t ht => Scope.le_set (hskip t ht))
    (fun t ht => (Scope.set_of_ne hne).trans (hoffset t ht)) (hfree (by decide) 4)
    (fun t ht => eval_mono ((hle t ht).trans (Scope.le_set (hskip t ht))) (hw t ht)) hlimit
  rw [reduced_zero] at inWave
  have crossWave := does_crossWave own m₀ f c.layout.fence c.layout.isRows hG hcnt hhas
    (fun v v' => (hA₆ v v').later hm')
    hwaves hoffset hskip hne (hfree (by decide) 4) (hfree (by decide) 5)
      (fun t ht => eval_mono (hle t ht) (hw t ht)) hlimit'
  refine does_comment.mpr (does_block.mpr (hsetup.append (.cons declareOffset (.cons (declareSkip.imp (fun _ _ _ => id)
    (fun _ => id) (Knows.forget fun t ht => ?_) fun _ => id) (.cons (does_comment.mpr inWave) (Does.single
    ((does_comment.mpr crossWave).imp (fun _ _ _ => id) (fun _ => id) (Knows.forget hle) fun _ => id)))))))
  rw [Scope.set_comm hne]
  exact .refl _

/-! ### Whole groups -/

/-- Waves of a power of two, or threads that are each their own wave. -/
theorem waved_of_width {width : Int64} (hwave : G.ctx.wave = max width 1)
    (hwidth : width = 0 ∨ ∃ m : Nat, width.toInt = 2 ^ m) (hsize : G.size ≤ 2 ^ 62) : ∃ m, Waved G m := by
  obtain ⟨m, hm⟩ := wave_isPower hwave hwidth
  have hfits := (fits_toInt G.ctx.wave).2
  have hlt : 2 ^ m < 2 ^ 63 := by omega
  refine ⟨m, ?_, Nat.lt_succ_iff.mp ((Nat.pow_lt_pow_iff_right (by omega)).mp hlt), hsize⟩
  rw [← Int64.toInt_inj, hm, Squad.toInt_ofNat hlt]

/-- A group of that size needs few steps across its waves. -/
theorem Waved.crossSteps_le {m : Nat} (h : Waved G m) : crossSteps m G.size ≤ 62 :=
  Nat.clog_le_of_le_pow ((waves_le m G.size).trans h.size)

variable {ctx : GroupContext} {s : GroupState} {place : Site}

/-- A whole group reduces its elements to their combination from left to right, in any layout, in waves of
    any power of two and with any order of its threads. It reads only the elements that it reduces. The
    distances between the elements are 64-bit integers that double, which bounds the group. -/
theorem reduce_folds (schedule : Schedule) {w : Exp} {width : Int64} {cnt : Nat} {a : Nat → Nat → c.lambda.Tuple}
    (hstarts : c.Starts ctx s n op) (hlies : c.layout.LiesAt c.launch 1 ctx s n place) (hop : Std.Associative op)
    (hwave : ctx.wave = max width 1) (hwidth : width = 0 ∨ ∃ m : Nat, width.toInt = 2 ^ m)
    (hw : s.Knows ctx n w fun _ => Int64.ofNat cnt) (hpos : 0 < cnt) (hcnt : cnt ≤ ctx.groupSize.toInt)
    (hsize : ctx.groupSize.toInt ≤ 2 ^ 62) (hlimit : 62 ≤ ctx.loopLimit) (hlanes : place.laneCount ≤ ctx.loopLimit)
    (ha : ∀ e < cnt, ∀ l < place.laneCount, place.Shows c.views s.store 0 e l (a e l).1) :
    (∃ s', Run.exec ctx ((c.reduce w).run n).1 (schedule.order ctx.groupSize.toInt.toNat) s = .ok () s' ∧
      ∀ l < place.laneCount, place.Shows c.views s'.store 0 0 l (foldSpan op (fun e => a e l) 0 (cnt - 1)).1) ∧
    ∀ event ∈ Run.trace Run.touchesAt ctx ((c.reduce w).run n).1 (schedule.order ctx.groupSize.toInt.toNat) s,
      event.Reads fun _ p => ∃ e l, e < cnt ∧ l < place.laneCount ∧
        tupleSlots c.views (place.spot 0 e l).toInt.toNat p := by
  let G := hstarts.team schedule
  have hsize' : ctx.groupSize.toInt = G.size := hstarts.size_eq schedule
  let A := hstarts.elements hlies (Nat.one_pos) hcnt ha
  obtain ⟨m, hG⟩ : ∃ m, Waved G m := waved_of_width hwave hwidth (by omega)
  have hcross := hG.crossSteps_le
  have hdoes := (reduce_does w).2 A G op (knowledge s ctx n)
    (fun t => (s.thread t).arrays) s.store (fun _ => a) hG (by omega) (fun e he => ⟨rfl, he⟩)
    (hstarts.manned schedule hlies hlanes) (fun t ht => eval_knowledge hw ht) (hG.width.trans hlimit)
      (hcross.trans hlimit)
  obtain ⟨⟨s', hrun, hm, -⟩, hreads⟩ := hstarts.run schedule hdoes (Starts.filled hstarts hlies Nat.one_pos hcnt ha)
  refine ⟨⟨s', hrun, fun l hl => ?_⟩, fun event hevent => ?_⟩
  · have := hm.shows ⟨rfl, hpos⟩ hl
    rwa [reduced, if_pos rfl, reduceSteps_zero hop hpos
      ((show cnt ≤ G.size by omega).trans (le_pow_crossSteps m G.size))]
      at this
  · refine (hreads event hevent).imp ?_
    rintro t p ⟨r, e, l, ⟨rfl, he⟩, hl, hp⟩
    exact ⟨e, l, he, hl, hp⟩

/-- The sums of the rows of the second group, for which the threads take their turns in reverse. -/
theorem counted_reduce_folds :
    ∃ s', Run.exec uncheckedContext ((pairRows.reduce (.int 2)).run 0).1 [1, 0] countedState =
    .ok () s' ∧ ∀ l < 3, (Site.rows 3 12 2).Shows pairRows.views s'.store 0 0 l
      (foldSpan sum (fun e => counted e l) 0 (2 - 1)).1 := by
  have hw : countedState.Knows uncheckedContext 0 (.int 2) fun _ => Int64.ofNat 2 :=
    counted_knows (by decide) (by decide +kernel)
  exact (reduce_folds .reverse counted_starts (counted_liesAt (by decide)) sum_associative (a := counted)
    rfl (Or.inl rfl) hw (by decide) (by decide) (by decide) (by decide) (by decide)
    fun e he l hl => counted_shows he hl).1

end SegKernel.Collective
