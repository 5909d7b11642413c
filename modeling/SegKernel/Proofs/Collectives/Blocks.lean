import SegKernel.Proofs.Collectives.Spans
import SegKernel.Proofs.Collectives.Starting

/-! Tests for the starts of segments, and the places of threads in the blocks of a scan. -/

namespace SegKernel

/-! ### Tests for segments -/

/-- The test tells of two positions below a bound whether a segment starts in between. -/
def SegmentTest.Tells (test : SegmentTest) (σ : Scope) (bound : Nat) (crosses : Nat → Nat → Bool) : Prop :=
  ∀ τ, σ.Le τ → ∀ (x y : Exp) (i j : Nat), i < j → j < bound → x.eval τ = .ok (.i64 (Int64.ofNat i)) →
    y.eval τ = .ok (.i64 (Int64.ofNat j)) → Exp.IsBool τ (test x y) (crosses i j)

/-- The test for the last positions of blocks tells what the test tells of these. -/
theorem SegmentTest.Tells.ofBlocks {test : SegmentTest} {σ : Scope} {crosses : Nat → Nat → Bool}
    (h : test.Tells σ 1024 crosses) :
    test.ofBlocks.Tells σ 32 fun i j => crosses (32 * i + 31) (32 * j + 31) := by
  have last : ∀ {τ : Scope} {x : Exp} {i : Nat}, x.eval τ = .ok (.i64 (Int64.ofNat i)) →
      (x * .int scanBlockSize + .int scanBlockSize - .int 1).eval τ = .ok (.i64 (Int64.ofNat (32 * i + 31))) := by
    intro τ x i hx
    have hsum : Int64.ofNat i * scanBlockSize + scanBlockSize - 1 = Int64.ofNat (32 * i + 31) := by
      rw [show scanBlockSize = Int64.ofNat 32 from rfl, ← Int64.ofNat_mul, ← Int64.ofNat_add,
        Squad.ofNat_sub_one (by omega), show i * 32 + 32 - 1 = 32 * i + 31 by omega]
    rw [← hsum]
    exact Exp.eval_sub (Exp.eval_add (Exp.eval_mul hx (Exp.eval_int _)) (Exp.eval_int _)) (Exp.eval_int 1)
  intro τ hτ x y i j hij hj hx hy
  exact h τ hτ _ _ _ _ (by omega) (by omega) (last hx) (last hy)

/-- Segments of equal size start at its multiples. -/
theorem crosses_multiple {m : Int64} (hm : 0 < m.toInt) {i j : Nat} (hij : i < j) (hj : j < 2 ^ 63) :
    decide ((Int64.ofNat j % m).toInt < (Int64.ofNat j - Int64.ofNat i).toInt) =
      decide (i < j / m.toInt.toNat * m.toInt.toNat) := by
  have hi' := Squad.toInt_ofNat (n := i) (by omega)
  have hj' := Squad.toInt_ofNat hj
  obtain ⟨s, hs⟩ : ∃ s : Nat, m.toInt = s := ⟨m.toInt.toNat, by omega⟩
  have hsplit := Nat.div_add_mod' j s
  rw [decide_eq_decide, Int64.toInt_mod, toInt_sub_of_fits (by rw [hi', hj']; unfold Fits; omega), hi', hj', hs,
    Int.tmod_eq_emod_of_nonneg (Int.natCast_nonneg j), Int.toNat_natCast, ← Int.natCast_emod]
  omega

/-- The test has an answer for any two positions. -/
def SegmentTest.Answers (test : SegmentTest) (σ : Scope) (answer : Int64 → Int64 → Bool) : Prop :=
  ∀ τ, σ.Le τ → ∀ (x y : Exp) (a b : Int64), x.eval τ = .ok (.i64 a) → y.eval τ = .ok (.i64 b) →
    Exp.IsBool τ (test x y) (answer a b)

theorem crossesSegment_answers {σ : Scope} {size : Exp} {m : Int64} (hsize : size.eval σ = .ok (.i64 m)) (hm : m ≠ 0) :
    (crossesSegment size).Answers σ fun a b => decide ((b % m).toInt < (b - a).toInt) := by
  intro τ hτ x y a b hx hy
  exact Exp.IsBool.gt (Exp.isInt_of_eval (Exp.eval_sub hy hx))
    (Exp.isInt_of_eval (Exp.eval_mod hy (Exp.eval_mono hτ hsize) hm))

/-- The test for positions that are counted from `start` tells what the test answers for the positions
    themselves. -/
theorem SegmentTest.Answers.shift {test : SegmentTest} {σ : Scope} {answer : Int64 → Int64 → Bool}
    (h : test.Answers σ answer) {start : Exp} {b : Int64} (hstart : start.eval σ = .ok (.i64 b)) (bound : Nat) :
    (test.shift start).Tells σ bound fun i j => answer (Int64.ofNat i + b) (Int64.ofNat j + b) := by
  intro τ hτ x y i j _ _ hx hy
  have hstart := Exp.eval_mono hτ hstart
  exact h τ hτ _ _ _ _ (Exp.eval_add hx hstart) (Exp.eval_add hy hstart)

theorem crossesSegment_tells {σ : Scope} {size : Exp} {m : Int64} (hsize : size.eval σ = .ok (.i64 m))
    (hm : 0 < m.toInt) :
    (crossesSegment size).Tells σ 1024 fun i j => decide (i < j / m.toInt.toNat * m.toInt.toNat) := by
  intro τ hτ x y i j hij hj hx hy
  have hne : m ≠ 0 := fun h => by
    rw [h] at hm
    exact absurd hm (by decide)
  have htest := crossesSegment_answers hsize hne τ hτ x y _ _ hx hy
  dsimp only at htest
  rwa [crosses_multiple hm hij (by omega)] at htest

/-- The test, if there is one, tells where segments start. Without one there is a single segment. -/
def TellsSegments (test : Option SegmentTest) (σ : Scope) (bound : Nat) (crosses : Nat → Nat → Bool) : Prop :=
  match test with
  | none => ∀ i j, crosses i j = false
  | some test => test.Tells σ bound crosses

namespace TellsSegments
variable {test : Option SegmentTest} {σ τ : Scope} {bound : Nat} {crosses : Nat → Nat → Bool}

theorem mono (h : TellsSegments test σ bound crosses) (hle : σ.Le τ) : TellsSegments test τ bound crosses := by
  cases test with
  | none => exact h
  | some test => exact fun υ hυ => h υ (hle.trans hυ)

theorem ofBlocks (h : TellsSegments test σ 1024 crosses) :
    TellsSegments (test.map SegmentTest.ofBlocks) σ 32 fun i j => crosses (32 * i + 31) (32 * j + 31) := by
  cases test with
  | none => exact fun i j => h _ _
  | some test => exact SegmentTest.Tells.ofBlocks h

end TellsSegments

/-- The test, if there is one, has an answer for any two positions. -/
def AnswersSegments (test : Option SegmentTest) (σ : Scope) (answer : Int64 → Int64 → Bool) : Prop :=
  match test with
  | none => ∀ a b, answer a b = false
  | some test => test.Answers σ answer

namespace AnswersSegments
variable {test : Option SegmentTest} {σ τ : Scope} {answer : Int64 → Int64 → Bool}

theorem mono (h : AnswersSegments test σ answer) (hle : σ.Le τ) : AnswersSegments test τ answer := by
  cases test with
  | none => exact h
  | some test => exact fun υ hυ => h υ (hle.trans hυ)

theorem shift (h : AnswersSegments test σ answer) {start : Exp} {b : Int64} (hstart : start.eval σ = .ok (.i64 b))
    (bound : Nat) :
    TellsSegments (test.map (·.shift start)) σ bound fun i j => answer (Int64.ofNat i + b) (Int64.ofNat j + b) := by
  cases test with
  | none => exact fun i j => h _ _
  | some test => exact SegmentTest.Answers.shift h hstart bound

end AnswersSegments

/-- The segments that a scan of a group is asked for: one for all elements, or segments of some size. -/
inductive GroupState.Segments (s : GroupState) (ctx : GroupContext) (n : Nat) : Option SegmentTest → (Nat → Nat) → Prop
  | whole : Segments s ctx n none fun _ => 0
  | ofSize {size : Exp} {m : Int64} (hsize : s.Knows ctx n size fun _ => m) (hm : 0 < m.toInt) :
    Segments s ctx n (some (crossesSegment size)) fun i => i / m.toInt.toNat * m.toInt.toNat

namespace GroupState.Segments
variable {s : GroupState} {ctx : GroupContext} {n : Nat} {test : Option SegmentTest} {start : Nat → Nat}

theorem segmentation (h : s.Segments ctx n test start) : Segmentation start := by
  cases h with
  | whole => exact .whole
  | ofSize => exact .ofSize _

theorem tells (h : s.Segments ctx n test start) {t : Nat} (ht : t < ctx.groupSize.toInt.toNat) :
    TellsSegments test (Collective.knowledge s ctx n t) 1024 fun i j => decide (i < start j) := by
  cases h with
  | whole => exact fun i j => decide_eq_false (Nat.not_lt_zero i)
  | ofSize hsize hm => exact crossesSegment_tells (Collective.eval_knowledge hsize ht) hm

/-- The answers for positions that are no negative integers. -/
theorem answers (h : s.Segments ctx n test start) : ∃ answer : Int64 → Int64 → Bool,
    (∀ t < ctx.groupSize.toInt.toNat, AnswersSegments test (Collective.knowledge s ctx n t) answer) ∧
      ∀ i j : Nat, i < j → j < 2 ^ 63 → answer (Int64.ofNat i) (Int64.ofNat j) = decide (i < start j) := by
  cases h with
  | whole => exact ⟨fun _ _ => false, fun _ _ _ _ => rfl, fun i _ _ _ => (decide_eq_false (Nat.not_lt_zero i)).symm⟩
  | @ofSize size m hsize hm =>
    have hne : m ≠ 0 := fun h => by
      rw [h] at hm
      exact absurd hm (by decide)
    exact ⟨fun a b => decide ((b % m).toInt < (b - a).toInt),
      fun t ht => crossesSegment_answers (Collective.eval_knowledge hsize ht) hne, fun i j => crosses_multiple hm⟩

end GroupState.Segments

namespace Collective
open Exp Team

variable {c : Collective} {A : c.Area} {G : Team} {op : c.lambda.Tuple → c.lambda.Tuple → c.lambda.Tuple}
  {B : Nat → Scope} {n cnt : Nat} {own : Nat → Memory}

/-! ### Blocks -/

/-- The place of each thread in the blocks, and whether it has one of the first elements, as it knows it. -/
structure Blocked (G : Team) (B : Nat → Scope) (ids : BlockIds) (cnt : Nat) : Prop where
  block : ∀ t < G.size, B t ids.block = some (.i64 (Int64.ofNat (t / 32)))
  inBlock : ∀ t < G.size, B t ids.inBlock = some (.i64 (Int64.ofNat (t % 32)))
  inBounds : ∀ t < G.size, B t ids.inBounds = some (.bool (decide (t < cnt)))

theorem Blocked.mono {B' : Nat → Scope} {ids : BlockIds} (h : Blocked G B ids cnt)
    (hle : ∀ t < G.size, (B t).Le (B' t)) :
    Blocked G B' ids cnt where
  block t ht := hle t ht _ _ (h.block t ht)
  inBlock t ht := hle t ht _ _ (h.inBlock t ht)
  inBounds t ht := hle t ht _ _ (h.inBounds t ht)

/-- The number of the block before the one of a thread. -/
theorem Blocked.eval_before {ids : BlockIds} (h : Blocked G B ids cnt) {t : Nat} (ht : t < G.size) (hlater : 32 ≤ t) :
    (Exp.var ids.block - .int 1).eval (B t) = .ok (.i64 (Int64.ofNat (t / 32 - 1))) := by
  have := eval_sub (eval_var (h.block t ht)) (eval_int 1)
  rwa [ofNat_block hlater, Int64.add_sub_cancel] at this

/-- The last position before the block of a thread. -/
theorem Blocked.eval_lastBefore {ids : BlockIds} (h : Blocked G B ids cnt) {t : Nat} (ht : t < G.size)
    (hlater : 32 ≤ t) :
    (Exp.var ids.block * .int scanBlockSize - .int 1).eval (B t) = .ok (.i64 (Int64.ofNat (t / 32 * 32 - 1))) := by
  have := eval_sub (eval_mul (eval_var (h.block t ht)) (eval_int scanBlockSize)) (eval_int 1)
  rwa [show scanBlockSize = Int64.ofNat 32 from rfl, ← Int64.ofNat_mul, Squad.ofNat_sub_one (by omega)] at this

/-- Each thread finds its place in the blocks. -/
theorem blocks_does (w : Exp) : Fresh.At n (BlockIds.declare c.launch w) fun m r => m = n + 3 ∧
    ∀ (A : c.Area) (G : Team) (op : c.lambda.Tuple → c.lambda.Tuple → c.lambda.Tuple) (B : Nat → Scope) (own : Nat → Memory)
      (K : Slot → Prop) (M : Store → Prop) (cnt : Nat), A.Manned G op B n → cnt ≤ G.size →
      (∀ t < G.size, w.eval (B t) = .ok (.i64 (Int64.ofNat cnt))) →
        ∃ σ : Nat → Scope, G.Does K (G.Knows B own) M r.2 (G.Knows σ own) M ∧ A.Manned G op σ (n + 3) ∧
          (∀ t < G.size, (B t).Le (σ t)) ∧ Blocked G σ r.1 cnt := by
  refine .take (.take (.take (.pure ⟨rfl, ?_⟩)))
  intro A G op B own K M cnt hA hcnt hw
  have hsize := hA.size_lt
  -- Each declaration adds one variable to what the threads know.
  let σ₁ : Nat → Scope := fun t => (B t).set (numbered "block_id" n) (.i64 (Int64.ofNat (t / 32)))
  let σ₂ : Nat → Scope := fun t => (σ₁ t).set (numbered "in_block_id" (n + 1)) (.i64 (Int64.ofNat (t % 32)))
  let σ₃ : Nat → Scope := fun t => (σ₂ t).set (numbered "ltid_in_bounds" (n + 2)) (.bool (decide (t < cnt)))
  have hA₁ : A.Manned G op σ₁ (n + 1) := hA.set (by decide)
  have hA₂ : A.Manned G op σ₂ (n + 2) := hA₁.set (by decide)
  have le₁ : ∀ t < G.size, (B t).Le (σ₁ t) := hA.le_set (by decide)
  have le₂ : ∀ t < G.size, (σ₁ t).Le (σ₂ t) := hA₁.le_set (by decide)
  have le₃ : ∀ t < G.size, (σ₂ t).Le (σ₃ t) := hA₂.le_set (by decide)
  have hblock : ∀ t, σ₁ t (numbered "block_id" n) = some (.i64 (Int64.ofNat (t / 32))) := fun t => Scope.set_self
  have hin : ∀ t, σ₂ t (numbered "in_block_id" (n + 1)) = some (.i64 (Int64.ofNat (t % 32))) := fun t => Scope.set_self
  have declareBlock : G.Does K (G.Knows B own) M (.declareInit (numbered "block_id" n) .i64
      (c.launch.ltid / .int scanBlockSize)) (G.Knows σ₁ own) M :=
    hA.declares (by decide) (fun t ht => by
      rw [← Squad.ofNat_div (by omega) (by omega)]
      exact eval_div (hA.localId t ht) (eval_int scanBlockSize) (by decide)) fun _ _ => rfl
  have declareIn : G.Does K (G.Knows σ₁ own) M (.declareInit (numbered "in_block_id" (n + 1)) .i64
      (c.launch.ltid - .var (numbered "block_id" n) * .int scanBlockSize)) (G.Knows σ₂ own) M :=
    hA₁.declares (by decide) (fun t ht => by
      rw [← Squad.ofNat_sub_div_mul]
      exact eval_sub (hA₁.localId t ht) (eval_mul (eval_var (hblock t)) (eval_int scanBlockSize))) fun _ _ => rfl
  have declareBounds : G.Does K (G.Knows σ₂ own) M (.declareInit (numbered "ltid_in_bounds" (n + 2)) .bool
      (c.launch.ltid.lt w)) (G.Knows σ₃ own) M :=
    hA₂.declares (by decide) (fun t ht => by
      have htest := IsBool.lt ⟨_, hA₂.localId t ht, Squad.toInt_ofNat (by omega)⟩
        ⟨_, eval_mono ((le₁ t ht).trans (le₂ t ht)) (hw t ht), Squad.toInt_ofNat (by omega)⟩
      rwa [decide_eq_decide.mpr Int.ofNat_lt] at htest) fun _ _ => rfl
  refine ⟨σ₃, does_block.mpr (.cons declareBlock (.cons declareIn (Does.single declareBounds))), hA₂.set (by decide),
    fun t ht => (le₁ t ht).trans ((le₂ t ht).trans (le₃ t ht)), ?_, ?_, fun t _ => Scope.set_self⟩
  · exact fun t ht => (le₂ t ht).trans (le₃ t ht) _ _ (hblock t)
  · exact fun t ht => le₃ t ht _ _ (hin t)

/-- Whether a thread takes in the element at a distance before its own. -/
theorem takesPart_isBool {σ : Scope} {skip inBlock active : Exp} {k t : Nat} {on : Bool} (hk : k ≤ 5)
    (hskip : skip.eval σ = .ok (.i64 (Int64.ofNat (2 ^ k)))) (hin : inBlock.eval σ = .ok (.i64 (Int64.ofNat (t % 32))))
    (hactive : IsBool σ active on) : IsBool σ ((skip.le inBlock).both active) (decide (2 ^ k ≤ t % 32) && on) := by
  have hpow : 2 ^ k ≤ 2 ^ 5 := Nat.pow_le_pow_right (by omega) hk
  have htest := IsBool.le ⟨_, hskip, Squad.toInt_ofNat (by omega)⟩ ⟨_, hin, Squad.toInt_ofNat (by omega)⟩
  rw [decide_eq_decide.mpr Int.ofNat_le] at htest
  exact htest.both fun _ => hactive

/-- Whether a thread is the last one of its block. -/
theorem lastInBlock_isBool {σ : Scope} {ids : BlockIds} {t : Nat}
    (hin : σ ids.inBlock = some (.i64 (Int64.ofNat (t % 32)))) :
    IsBool σ ids.isLastInBlock (decide (t % 32 = 31)) := by
  have htest := IsBool.equals ⟨_, eval_var hin, Squad.toInt_ofNat (by omega)⟩ (.int (scanBlockSize - 1))
  rwa [decide_eq_decide.mpr (show ((t % 32 : Nat) : Int) = (scanBlockSize - 1).toInt ↔ t % 32 = 31 by
    rw [show (scanBlockSize - 1).toInt = 31 from rfl]
    omega)] at htest

/-- A scan of blocks, in which some threads take part. -/
structure ScansBlocks (A : c.Area) (G : Team) (op : c.lambda.Tuple → c.lambda.Tuple → c.lambda.Tuple) (B : Nat → Scope)
    (n : Nat) (test : Option SegmentTest) (ids : BlockIds) (active : Exp) (bound : Nat) (on : Nat → Bool)
    (crosses : Nat → Nat → Bool) :
    Prop where
  manned : A.Manned G op B n
  inBlock : ∀ t < G.size, B t ids.inBlock = some (.i64 (Int64.ofNat (t % 32)))
  active : ∀ t < G.size, IsBool (B t) active (on t)
  lt : ∀ t, on t = true → t < bound
  tells : ∀ t < G.size, TellsSegments test (B t) bound crosses
  rounds : 5 ≤ G.ctx.loopLimit

namespace ScansBlocks
variable {test : Option SegmentTest} {ids : BlockIds} {active : Exp} {bound : Nat} {on : Nat → Bool}
  {crosses : Nat → Nat → Bool} (h : ScansBlocks A G op B n test ids active bound on crosses)
include h

/-- The number of an earlier element. -/
theorem eval_earlier {σ : Scope} {skip : Ident} {t d : Nat} (ht : t < G.size) (hσ : (B t).Le σ)
    (hskip : σ skip = some (.i64 (Int64.ofNat d))) (hd : d ≤ t) :
    (c.launch.ltid - .var skip).eval σ = .ok (.i64 (Int64.ofNat (t - d))) := by
  rw [Int64.ofNat_sub _ _ hd]
  exact eval_sub (eval_mono hσ (h.manned.localId t ht)) (eval_var hskip)

theorem takesPart {σ : Scope} {skip : Ident} {t j : Nat} (ht : t < G.size) (hj : j ≤ 5) (hσ : (B t).Le σ)
    (hskip : σ skip = some (.i64 (Int64.ofNat (2 ^ j)))) :
    IsBool σ (((Exp.var skip).le (.var ids.inBlock)).both active) (decide (2 ^ j ≤ t % 32) && on t) :=
  takesPart_isBool hj (eval_var hskip) (eval_var (hσ _ _ (h.inBlock t ht))) ((h.active t ht).mono hσ)

/-- The condition under which a thread that takes part drops what it has read. -/
theorem drops {σ : Scope} {skip : Ident} {t j : Nat} (ht : t < G.size) (hσ : (B t).Le σ)
    (hskip : σ skip = some (.i64 (Int64.ofNat (2 ^ j)))) (hd : 2 ^ j ≤ t % 32) (hon : on t = true) :
    Keeping σ (test.map fun test => test (c.launch.ltid - .var skip) c.launch.ltid) (crosses (t - 2 ^ j) t) := by
  have hd : 2 ^ j ≤ t := Nat.le_trans hd (Nat.mod_le t 32)
  have hpos : 0 < 2 ^ j := Nat.pow_pos (by omega)
  have htells := h.tells t ht
  cases test with
  | none => exact htells _ _
  | some test =>
    exact htells _ hσ _ _ _ _ (by omega) (h.lt t hon) (h.eval_earlier ht hσ hskip hd)
      (eval_mono hσ (h.manned.localId t ht))

end ScansBlocks
end Collective
end SegKernel
