import SegKernel.Proofs.Collectives.Blocks
import SegKernel.Proofs.Collectives.Registers

/-! The scan of blocks of scalars. Each thread holds its element in registers. A step of a block is a step on
    the elements in memory, which the registers follow. -/

namespace SegKernel.Collective
open Exp Team Solo

variable {c : Collective} {A : c.Area} {G : Team} {op : c.lambda.Tuple → c.lambda.Tuple → c.lambda.Tuple}
  {B : Nat → Scope} {n k cnt bound : Nat} {own : Nat → Memory} {m₀ : Store} {f : c.Contents} {b : Int64}
  {base active : Exp} {ids : BlockIds} {on : Nat → Bool} {crosses : Nat → Nat → Bool} {test : Option SegmentTest}
  {xs ys : List Ident} {apply : Stmt}

/-! ### Scalars -/

namespace Area

theorem laneCount_of_shared (hplace : A.place = .shared b) : A.place.laneCount = 1 := by
  rw [hplace]
  rfl

theorem isInt_of_shared {σ : Scope} {x : Exp} {e : Nat} (hplace : A.place = .shared b) (h : A.has 0 e)
    (hx : x.eval σ = .ok (.i64 (b + Int64.ofNat e))) : IsInt σ x (A.position 0 e 0) := by
  refine Area.isInt_position h (by rw [laneCount_of_shared hplace]; omega) ?_
  rw [hplace]
  exact hx

theorem writes_of_shared (hplace : A.place = .shared b) (e : Nat) (vs : Nat → c.lambda.Tuple) :
    A.writes 0 e vs = tupleWrites c.views (A.position 0 e 0) (vs 0).1 := by
  rw [Area.writes, laneCount_of_shared hplace, List.range_one, List.flatMap_singleton]

/-- A thread stores a tuple that it holds in registers. -/
theorem ensures_writeAll {E : Solo} {th : Thread} {Q : Claim} {σ : Scope} {index : Exp} {e : Nat} {m : Store}
    (volatile : Bool) (hplace : A.place = .shared b) (h : A.has 0 e) (hm : A.Filled m₀ f m) (hstore : E.store = m)
    (hσ : σ.Le (E.scope th)) (hindex : index.eval σ = .ok (.i64 (b + Int64.ofNat e))) (vs : Nat → c.lambda.Tuple)
    (hxs : (E.scope th).Sees xs (vs 0).1) (hown : ∀ p, A.slots 0 e 0 p → E.own E.id p) (hQ : Q th (A.writes 0 e vs)) :
    E.Ensures (writeAll (c.views.map (·.withVolatile volatile)) xs index) Q th [] := by
  refine Solo.ensures_writeAll hσ (isInt_of_shared hplace h hindex) hxs ?_ ?_ (fun p hp => ?_) ?_
  · rw [List.map_map]
    exact A.types (vs 0)
  · intro view hview
    obtain ⟨view', hview', rfl⟩ := List.mem_map.mp hview
    rw [hstore]
    exact hm.reaches h (by rw [laneCount_of_shared hplace]; omega) view' hview'
  · exact hown p ((tupleSlots_withVolatile volatile _ _ _).mp hp)
  · rw [writes_of_shared hplace] at hQ
    rw [tupleWrites_withVolatile]
    exact hQ

end Area

/-- The tuple of zeros, which new variables hold. -/
def zeros (l : Lambda) : l.Tuple := ⟨l.resultTypes.map .zero, by
  rw [List.map_map]
  exact (List.map_congr_left fun type _ => Value.type_zero type).trans (List.map_id _)⟩

/-- The contents after the first steps of a scan of blocks, in the first region. -/
def scanned (op : c.lambda.Tuple → c.lambda.Tuple → c.lambda.Tuple) (crosses : Nat → Nat → Bool) (on : Nat → Bool)
    (f : c.Contents)
    (k : Nat) : c.Contents :=
  fun r e l => if r = 0 then scanSteps op crosses on (fun e => f 0 e l) k e else f r e l

theorem scanned_first (e l : Nat) :
    scanned op crosses on f k 0 e l = scanSteps op crosses on (fun e => f 0 e l) k e := if_pos rfl

theorem scanned_zero : scanned op crosses on f 0 = f := by
  funext r e l
  by_cases hr : r = 0
  · rw [scanned, if_pos hr, hr]
    rfl
  · rw [scanned, if_neg hr]

theorem scanned_succ (j t l : Nat) : scanned op crosses on f (j + 1) 0 t l =
    if on t = true ∧ 2 ^ j ≤ t % 32 then
      if crosses (t - 2 ^ j) t then scanned op crosses on f j 0 t l
      else op (scanned op crosses on f j 0 (t - 2 ^ j) l) (scanned op crosses on f j 0 t l)
    else scanned op crosses on f j 0 t l := by
  simp only [scanned, if_true, scanSteps, scanStep]

/-- A scan of blocks of scalars. -/
structure ScansScalars (A : c.Area) (G : Team) (op : c.lambda.Tuple → c.lambda.Tuple → c.lambda.Tuple) (B : Nat → Scope)
    (n : Nat) (test : Option SegmentTest) (base : Exp) (ids : BlockIds) (active : Exp) (b : Int64) (cnt bound : Nat)
    (on : Nat → Bool) (crosses : Nat → Nat → Bool) :
    Prop extends ScansBlocks A G op B n test ids active bound on crosses where
  place : A.place = .shared b
  base : ∀ t < G.size, base.eval (B t) = .ok (.i64 b)
  has : ∀ e < cnt, A.has 0 e
  size : cnt ≤ G.size
  reaches : ∀ t, on t = true → t < cnt

/-- The names of the variables of a scan of blocks. -/
structure ScanNames (count n k : Nat) (xs ys : List Ident) : Prop where
  left : Registers n k count xs
  right : Registers n k count ys
  apart : ∀ x ∈ xs, x ∉ ys

theorem ScanNames.operands {count m : Nat} {σ : Scope} (h : ScanNames count n k xs ys) (hσ : σ.Before n) (hn : n ≤ m)
    (hk : k ≤ m) :
    σ.Operands m xs ys where
  before := hσ.mono hn
  leftUnknown := h.left.unknown hσ
  rightUnknown := h.right.unknown hσ
  leftOld := h.left.not_new hk
  rightOld := h.right.not_new hk
  leftNodup := h.left.nodup
  rightNodup := h.right.nodup
  apart := h.apart

/-- What a thread knows in the course of a scan of blocks: a distance, and whether a segment starts. -/
def scanScope (σ : Scope) (k distance : Nat) (starts : Bool) : Scope :=
  (σ.set (numbered "skip_threads" k) (.i64 (Int64.ofNat distance))).set (numbered "inactive" (k + 1)) (.bool starts)

theorem scanScope_skip (σ : Scope) (k distance : Nat) (starts : Bool) :
    scanScope σ k distance starts (numbered "skip_threads" k) = some (.i64 (Int64.ofNat distance)) := by
  have hne : numbered "inactive" (k + 1) ≠ numbered "skip_threads" k := fun e => by
    have := (numbered_inj.mp e).2
    omega
  rw [scanScope, Scope.set_of_ne hne, Scope.set_self]

/-- What a thread holds in registers in the course of a scan of blocks. -/
structure Held (G : Team) (B : Nat → Scope) (own : Nat → Memory) (k : Nat) (xs ys : List Ident) (distance : Nat)
    (P : Nat → c.lambda.Tuple → c.lambda.Tuple → Prop) (t : Nat) (th : Thread) : Prop where
  arrays : th.arrays = own t
  holds : ∃ x y starts, P t x y ∧ (scanScope (B t) k distance starts).Holds xs ys x.1 y.1 (th.scope G.ctx.captured)

namespace ScansScalars
variable (h : ScansScalars A G op B n test base ids active b cnt bound on crosses)
  (hnames : ScanNames c.lambda.resultTypes.length n k xs ys) (hk : n ≤ k)
include h

theorem laneCount : A.place.laneCount = 1 := Area.laneCount_of_shared h.place

/-- The index of the own element. -/
theorem isInt_own {σ : Scope} {t : Nat} (ht : t < G.size) (hσ : (B t).Le σ) (hon : on t = true) :
    IsInt σ (base + c.launch.ltid) (A.position 0 t 0) :=
  Area.isInt_of_shared h.place (h.has t (h.reaches t hon))
    (eval_add (eval_mono hσ (h.base t ht)) (eval_mono hσ (h.manned.localId t ht)))

/-- The index of an earlier element. -/
theorem isInt_earlier {σ : Scope} {skip : Ident} {t d : Nat} (ht : t < G.size) (hσ : (B t).Le σ) (hon : on t = true)
    (hskip : σ skip = some (.i64 (Int64.ofNat d))) (hd : d ≤ t) :
    IsInt σ (base + c.launch.ltid - .var skip) (A.position 0 (t - d) 0) := by
  have hhas := h.has (t - d) (Nat.lt_of_le_of_lt (Nat.sub_le _ _) (h.reaches t hon))
  refine Area.isInt_of_shared h.place hhas ?_
  have hsub : b + Int64.ofNat t - Int64.ofNat d = b + Int64.ofNat (t - d) := by
    rw [Int64.ofNat_sub _ _ hd, Int64.sub_eq_add_neg, Int64.sub_eq_add_neg, Int64.add_assoc]
  rw [← hsub]
  exact eval_sub (eval_add (eval_mono hσ (h.base t ht)) (eval_mono hσ (h.manned.localId t ht))) (eval_var hskip)

include hk in
theorem le_scanScope {t : Nat} (ht : t < G.size) (d : Nat) (starts : Bool) : (B t).Le (scanScope (B t) k d starts) := by
  have hB := h.manned.before t ht
  refine (Scope.le_set (hB.fresh (by decide) hk)).trans (Scope.le_set ?_)
  exact (hB.set (m := k + 1) (by omega) (Nat.lt_succ_self k)).fresh (by decide) (Nat.le_refl _)

include hnames

theorem free {E : Solo} (hE : E.ctx = G.ctx) : (∀ x ∈ xs, E.Free x) ∧ ∀ x ∈ ys, E.Free x := by
  refine ⟨fun x hx => ?_, fun x hx => ?_⟩
  · rw [Solo.Free, hE]
    exact h.manned.free x (hnames.left.taken x hx).new
  · rw [Solo.Free, hE]
    exact h.manned.free x (hnames.right.taken x hx).new

include hk

theorem operands {t : Nat} (ht : t < G.size) (d : Nat) (starts : Bool) :
    (scanScope (B t) k d starts).Operands (k + 2) xs ys := by
  refine ((hnames.operands (h.manned.before t ht) (m := k + 2) (by omega) (by omega)).set
    (hnames.left.ne_numbered (Nat.le_refl k)) (hnames.right.ne_numbered (Nat.le_refl k)) ?_ _).set
    (hnames.left.ne_numbered (by omega)) (hnames.right.ne_numbered (by omega)) ?_ _
  · exact fun hnew => hnew.ne_numbered (by omega) rfl
  · exact fun hnew => hnew.ne_numbered (by omega) rfl

/-- The threads that take part read the elements before their own. -/
theorem does_readOperands {j : Nat} (hj : j < 5) :
    G.Does A.covers
      (Held G B own k xs ys (2 ^ j) fun t x y => on t = true → y = scanned op crosses on f j 0 t 0 ∧
        (t % 32 < 2 ^ j → x = scanned op crosses on f j 0 t 0))
      (A.Filled m₀ (scanned op crosses on f j))
      (.when (((Exp.var (numbered "skip_threads" k)).le (.var ids.inBlock)).both active)
        (readAll (c.views.map View.uncached) xs (base + c.launch.ltid - .var (numbered "skip_threads" k))))
      (Held G B own k xs ys (2 ^ j) fun t x y => on t = true → y = scanned op crosses on f j 0 t 0 ∧
        x = scanned op crosses on f j 0 (if t % 32 < 2 ^ j then t else t - 2 ^ j) 0)
      (A.Filled m₀ (scanned op crosses on f j)) := by
  refine Does.silent h.manned.unchecked fun m hm t ht th hth => ?_
  obtain ⟨x, y, starts, hP, hholds⟩ := hth.holds
  have hskip := scanScope_skip (B t) k (2 ^ j) starts
  have hle := h.le_scanScope hk ht (2 ^ j) starts
  have hops := h.operands hnames hk ht (2 ^ j) starts
  have hpart := h.takesPart ht (Nat.le_of_lt hj) hle hskip
  refine ensures_when (hpart.mono hholds.known) (fun htakes => ?_) fun hskips =>
    ⟨⟨hth.arrays, x, y, starts, ?_, hholds⟩, rfl⟩
  · obtain ⟨hd, hon⟩ := (Bool.and_eq_true_iff).mp htakes
    have hd : 2 ^ j ≤ t % 32 := of_decide_eq_true hd
    have hhas : A.has 0 (t - 2 ^ j) := h.has _ (Nat.lt_of_le_of_lt (Nat.sub_le _ _) (h.reaches t hon))
    have hlane : 0 < A.place.laneCount := by rw [h.laneCount]; omega
    refine ensures_readAll hholds.known hops.leftUnknown (h.isInt_earlier ht hle hon hskip (by omega))
      hops.leftNodup hops.leftOld
      (h.free hnames rfl).1 hholds.left ((hm.holds hhas hlane).withVolatile true) (fun p hp => ?_)
      (x.2.trans (scanned op crosses on f j 0 (t - 2 ^ j) 0).2.symm)
      fun th' hth' ha => ⟨⟨ha.trans hth.arrays, _, y, starts, ?_, hops.setLeft hholds hth'⟩, rfl⟩
    · exact keeps_among ⟨_, _, _, hhas, hlane, (tupleSlots_withVolatile true _ _ _).mp hp⟩ fun _ _ => id
    · rw [if_neg (by omega)]
      exact fun _ => ⟨(hP hon).1, rfl⟩
  · intro hon
    rw [hon, Bool.and_true, decide_eq_false_iff_not] at hskips
    rw [if_pos (by omega)]
    exact ⟨(hP hon).1, (hP hon).2 (by omega)⟩

/-- The threads that take part combine what they have read with their own elements. -/
theorem does_takeIn {j : Nat} (hj : j < 5) (happly : Applies c.lambda (k + 2) xs ys apply) :
    G.Does A.covers
      (Held G B own k xs ys (2 ^ j) fun t x y => on t = true → y = scanned op crosses on f j 0 t 0 ∧
        x = scanned op crosses on f j 0 (if t % 32 < 2 ^ j then t else t - 2 ^ j) 0)
      (A.Filled m₀ (scanned op crosses on f j))
      (match test with
      | none => .when (((Exp.var (numbered "skip_threads" k)).le (.var ids.inBlock)).both active) apply
      | some test => .block [
        .set (numbered "inactive" (k + 1))
          ((((Exp.var (numbered "skip_threads" k)).le (.var ids.inBlock)).both active).both
          (test (c.launch.ltid - .var (numbered "skip_threads" k)) c.launch.ltid)),
        .when (.var (numbered "inactive" (k + 1))) (setAll xs ys),
        .when ((((Exp.var (numbered "skip_threads" k)).le (.var ids.inBlock)).both active).both
          (Exp.var (numbered "inactive" (k + 1))).negation) apply])
      (Held G B own k xs ys (2 ^ j) fun t x y => on t = true → y = scanned op crosses on f j 0 t 0 ∧
        x = scanned op crosses on f (j + 1) 0 t 0)
      (A.Filled m₀ (scanned op crosses on f j)) := by
  refine Does.silent h.manned.unchecked fun m hm t ht th hth => ?_
  obtain ⟨x, y, starts, hP, hholds⟩ := hth.holds
  have hpart : ∀ starts, IsBool (scanScope (B t) k (2 ^ j) starts) _ _ := fun starts =>
    h.takesPart ht (Nat.le_of_lt hj) (h.le_scanScope hk ht (2 ^ j) starts) (scanScope_skip (B t) k (2 ^ j) starts)
  have hop : ∀ starts, c.lambda.Combines (scanScope (B t) k (2 ^ j) starts) x.1 y.1 (op x y).1 := fun starts =>
    (h.manned.computes t ht).mono (h.le_scanScope hk ht (2 ^ j) starts) x y
  have hfree := (h.free hnames (E := G.among A.covers (fun _ _ => False) m t) rfl).1
  -- What the thread holds then, whether or not it takes part.
  have hnext : ∀ p, p = (decide (2 ^ j ≤ t % 32) && on t) → on t = true → y = scanned op crosses on f j 0 t 0 ∧
      (if p then if crosses (t - 2 ^ j) t then y else op x y else x) = scanned op crosses on f (j + 1) 0 t 0 := by
    rintro _ rfl hon
    obtain ⟨rfl, rfl⟩ := hP hon
    rw [scanned_succ, hon, Bool.and_true]
    by_cases htakes : 2 ^ j ≤ t % 32
    · have : ¬t % 32 < 2 ^ j := Nat.not_lt.mpr htakes
      simp only [htakes, this, decide_true, and_true, if_true, if_false]
    · have : t % 32 < 2 ^ j := Nat.not_le.mp htakes
      simp [htakes, this]
  have htells := h.tells t ht
  cases test with
  | none =>
    have hno : crosses (t - 2 ^ j) t = false := htells _ _
    have hnext := hnext _ rfl
    refine ensures_when ((hpart starts).mono hholds.known) (fun htakes => ?_) fun hskips => ?_
    · refine happly _ _ th _ [] x.1 y.1 _ (h.operands hnames hk ht _ starts) hfree hholds (hop starts) x.2 (op x y).2
        fun th' hth' ha => ⟨⟨ha.trans hth.arrays, _, y, starts, ?_, hth'⟩, rfl⟩
      rw [htakes, hno] at hnext
      exact hnext
    · rw [hskips] at hnext
      exact ⟨⟨hth.arrays, x, y, starts, hnext, hholds⟩, rfl⟩
  | some test =>
    have hle := h.le_scanScope hk ht (2 ^ j) starts
    obtain ⟨next, hdef⟩ : ∃ next, next = (decide (2 ^ j ≤ t % 32) && on t && crosses (t - 2 ^ j) t) := ⟨_, rfl⟩
    have hstarts : IsBool (scanScope (B t) k (2 ^ j) starts)
      ((((Exp.var (numbered "skip_threads" k)).le (.var ids.inBlock)).both
        active).both (test (c.launch.ltid - .var (numbered "skip_threads" k)) c.launch.ltid))
        next := by
      rw [hdef]
      refine (hpart starts).both fun htakes => ?_
      obtain ⟨hd, hon⟩ := (Bool.and_eq_true_iff).mp htakes
      exact h.drops ht hle (scanScope_skip _ _ _ _) (of_decide_eq_true hd) hon
    rw [ensures_block, ensuresAll_cons]
    refine ensures_set_of_known (.refl _) (h.manned.free _ (new_numbered (by decide) (by omega)))
      (hholds.known _ _ Scope.set_self) (hstarts.mono hholds.known) rfl fun th₁ hth₁ ha₁ => ?_
    have hholds₁ := hholds.set hth₁ (hnames.left.ne_numbered (by omega)) (hnames.right.ne_numbered (by omega))
    rw [scanScope, Scope.set_set] at hholds₁
    have hops := h.operands hnames hk ht (2 ^ j) next
    refine ensures_takeIn happly hops hops (.refl _) hfree hholds₁ (hpart _)
      (by rw [← hdef]; exact Scope.set_self) (hop _)
      x.2 y.2 (op x y).2 fun th' hth' ha => ⟨⟨(ha.trans ha₁).trans hth.arrays, _, y, next, hnext _ rfl, ?_⟩, rfl⟩
    simp only [apply_ite Subtype.val]
    exact hth'

/-- The threads that take part store their results. -/
theorem does_writeResult {j : Nat} (hj : j < 5) :
    G.Does A.covers
      (Held G B own k xs ys (2 ^ j) fun t x y => on t = true → y = scanned op crosses on f j 0 t 0 ∧
        x = scanned op crosses on f (j + 1) 0 t 0)
      (A.Filled m₀ (scanned op crosses on f j))
      (.when (((Exp.var (numbered "skip_threads" k)).le (.var ids.inBlock)).both active) <| .block [
        writeAll (c.views.map View.uncached) xs (base + c.launch.ltid), setAll ys xs])
      (Held G B own k xs ys (2 ^ j) fun t x y => on t = true → y = scanned op crosses on f (j + 1) 0 t 0 ∧
        x = scanned op crosses on f (j + 1) 0 t 0)
      (A.Filled m₀ (scanned op crosses on f (j + 1))) := by
  have hlane : 0 < A.place.laneCount := by rw [h.laneCount]; omega
  refine Area.does_stores (fun t => decide (2 ^ j ≤ t % 32) && on t) (fun t => (0, t))
    (fun t => scanned op crosses on f (j + 1) 0 t) h.manned.unchecked
    (fun t _ hp => h.has t (h.reaches t ((Bool.and_eq_true_iff).mp hp).2)) (fun t _ t' _ _ _ => congrArg Prod.snd)
    (fun m hm t ht th hth => ?_)
    (fun _ _ _ _ _ => rfl) fun r e _ hother l _ => ?_
  -- A thread that takes part stores what it has combined; the others keep theirs.
  · obtain ⟨x, y, starts, hP, hholds⟩ := hth.holds
    have hle := h.le_scanScope hk ht (2 ^ j) starts
    have hops := h.operands hnames hk ht (2 ^ j) starts
    have hpart := h.takesPart ht (Nat.le_of_lt hj) hle (scanScope_skip (B t) k (2 ^ j) starts)
    refine ensures_when (hpart.mono hholds.known) (fun htakes => ?_) fun hskips =>
      ⟨⟨hth.arrays, x, y, starts, ?_, hholds⟩, ?_⟩
    · obtain ⟨-, hon⟩ := (Bool.and_eq_true_iff).mp htakes
      obtain ⟨-, hx⟩ := hP hon
      have hhas : A.has 0 t := h.has t (h.reaches t hon)
      rw [ensures_block, ensuresAll_cons, ensuresAll_singleton]
      have hindex := eval_add (eval_mono hle (h.base t ht)) (eval_mono hle (h.manned.localId t ht))
      refine Area.ensures_writeAll true h.place hhas hm rfl hholds.known hindex (scanned op crosses on f (j + 1) 0 t)
        (hx ▸ hholds.left) (fun p hp => own_among ⟨ht, htakes, 0, hlane, hp⟩) ?_
      refine ensures_setAll hops.rightNodup hops.rightOld (h.free hnames rfl).2 hops.apart hholds.right hholds.left
        (y.2.trans x.2.symm) fun th' hth' ha =>
          ⟨⟨ha.trans hth.arrays, x, x, starts, fun _ => ⟨hx, hx⟩, hops.setRight hholds hth'⟩, ?_⟩
      rw [if_pos htakes]
    · intro hon
      rw [hon, Bool.and_true, decide_eq_false_iff_not] at hskips
      obtain ⟨hy, hx⟩ := hP hon
      refine ⟨?_, hx⟩
      rw [hy, scanned_succ, if_neg fun h => hskips h.2]
    · rw [if_neg (by rw [hskips]; exact Bool.false_ne_true)]
  · by_cases hr : r = 0
    · subst hr
      have hl : l = 0 := by
        have := h.laneCount
        omega
      rw [scanned_succ, if_neg fun htakes => ?_]
      have hlt := h.reaches e htakes.1
      exact hother e (Nat.lt_of_lt_of_le hlt h.size) (by rw [htakes.1, decide_eq_true htakes.2]; rfl) rfl
    · simp only [scanned, if_neg hr]

omit hnames hk in
/-- The barrier between the parts of a step, if there is one. -/
theorem does_waveBarrier {distance : Nat} {P : Nat → c.lambda.Tuple → c.lambda.Tuple → Prop} {K : Slot → Prop}
    {M : Store → Prop} (hk : n ≤ k) :
    G.Does K (Held G B own k xs ys distance P) M (.when (c.launch.wave.lt (.int scanBlockSize)) (.barrier .shared))
      (Held G B own k xs ys distance P) M := by
  refine Does.when (b := decide (G.ctx.wave.toInt < 32)) (fun t ht th hth => ?_) (fun _ => does_barrier)
    fun _ => does_skip
  obtain ⟨x, y, starts, -, hholds⟩ := hth.holds
  exact (IsBool.lt (isInt_of_eval (h.manned.wave t ht)) (.int scanBlockSize)).mono
    ((h.le_scanScope hk ht distance starts).trans hholds.known)

/-- The distance doubles. -/
theorem does_double {j : Nat} {P : Nat → c.lambda.Tuple → c.lambda.Tuple → Prop} {K : Slot → Prop} {M : Store → Prop} :
    G.Does K (Held G B own k xs ys (2 ^ j) P) M
      (.set (numbered "skip_threads" k) (.var (numbered "skip_threads" k) * .int 2))
      (Held G B own k xs ys (2 ^ (j + 1)) P) M := by
  refine Does.silent h.manned.unchecked fun m hm t ht th hth => ?_
  obtain ⟨x, y, starts, hP, hholds⟩ := hth.holds
  have hskip := scanScope_skip (B t) k (2 ^ j) starts
  have hdouble := eval_mul (eval_var hskip) (eval_int 2)
  rw [ofNat_pow_mul_two] at hdouble
  have hne : numbered "inactive" (k + 1) ≠ numbered "skip_threads" k := fun e => by
    have := (numbered_inj.mp e).2
    omega
  refine ensures_set_of_known (.refl _) (h.manned.free _ (new_numbered (by decide) hk)) (hholds.known _ _ hskip)
    (eval_mono hholds.known hdouble) rfl fun th' hth' ha => ⟨⟨ha.trans hth.arrays, x, y, starts, hP, ?_⟩, rfl⟩
  have := hholds.set hth' (hnames.left.ne_numbered (Nat.le_refl k)) (hnames.right.ne_numbered (Nat.le_refl k))
  rwa [scanScope, Scope.set_comm hne, Scope.set_set] at this

/-- The steps of the scan of blocks. -/
theorem does_rounds (own : Nat → Memory) (m₀ : Store) (f : c.Contents) (happly : Applies c.lambda (k + 2) xs ys apply) :
    G.Does A.covers (Held G B own k xs ys 1 fun t x y => on t = true → y = f 0 t 0 ∧ (t % 32 = 0 → x = f 0 t 0))
      (A.Filled m₀ f)
      (.repeatWhile ((Exp.var (numbered "skip_threads" k)).lt (.int scanBlockSize)) <| .block [
        .when (((Exp.var (numbered "skip_threads" k)).le (.var ids.inBlock)).both active)
          (readAll (c.views.map View.uncached) xs (base + c.launch.ltid - .var (numbered "skip_threads" k))),
        .when (c.launch.wave.lt (.int scanBlockSize)) (.barrier .shared),
        (match test with
        | none => .when (((Exp.var (numbered "skip_threads" k)).le (.var ids.inBlock)).both active) apply
        | some test => .block [
          .set (numbered "inactive" (k + 1))
            ((((Exp.var (numbered "skip_threads" k)).le (.var ids.inBlock)).both active).both
            (test (c.launch.ltid - .var (numbered "skip_threads" k)) c.launch.ltid)),
          .when (.var (numbered "inactive" (k + 1))) (setAll xs ys),
          .when ((((Exp.var (numbered "skip_threads" k)).le (.var ids.inBlock)).both active).both
            (Exp.var (numbered "inactive" (k + 1))).negation) apply]),
        .when (c.launch.wave.lt (.int scanBlockSize)) (.barrier .shared),
        .when (((Exp.var (numbered "skip_threads" k)).le (.var ids.inBlock)).both active) <| .block [
          writeAll (c.views.map View.uncached) xs (base + c.launch.ltid), setAll ys xs],
        .when (c.launch.wave.lt (.int scanBlockSize)) (.barrier .shared),
        .set (numbered "skip_threads" k) (.var (numbered "skip_threads" k) * .int 2)])
      (Held G B own k xs ys 32 fun t x _ => on t = true → x = scanned op crosses on f 5 0 t 0)
      (A.Filled m₀ (scanned op crosses on f 5)) := by
  let T : Nat → Nat → Thread → Prop := fun j => Held G B own k xs ys (2 ^ j) fun t x y => on t = true →
    y = scanned op crosses on f j 0 t 0 ∧ (t % 32 < 2 ^ j → x = scanned op crosses on f j 0 t 0)
  have weaken : ∀ {d} {P P' : Nat → c.lambda.Tuple → c.lambda.Tuple → Prop}, (∀ t x y, P t x y → P' t x y) →
    ∀ t < G.size, ∀ th,
      Held G B own k xs ys d P t th → Held G B own k xs ys d P' t th := fun hP t _ th hth => by
    obtain ⟨x, y, starts, hPxy, hholds⟩ := hth.holds
    exact ⟨hth.arrays, x, y, starts, hP t x y hPxy, hholds⟩
  have loop := Does.repeatWhile (G := G) (K := A.covers)
    (c := (Exp.var (numbered "skip_threads" k)).lt (.int scanBlockSize))
    (n := 5) T
    (fun j => A.Filled m₀ (scanned op crosses on f j)) h.rounds (fun j hj t ht th hth => ?_) fun j hj => does_block.mpr
      (.cons (h.does_readOperands hnames hk hj)
        (.cons (h.does_waveBarrier hk) (.cons (h.does_takeIn hnames hk hj happly)
      (.cons (h.does_waveBarrier hk) (.cons (h.does_writeResult hnames hk hj) (.cons (h.does_waveBarrier hk)
      (Does.single ((h.does_double hnames hk).imp (fun _ _ _ => id) (fun _ => id)
        (weaken fun t x y hP hon => ⟨(hP hon).1, fun _ => (hP hon).2⟩) fun _ => id))))))))
  · refine loop.imp (weaken fun t x y hP hon => ?_) (fun m hm => ?_)
      (weaken fun t x y hP hon => (hP hon).2 (Nat.mod_lt t (by omega))) fun _ => id
    · rw [scanned_zero]
      exact ⟨(hP hon).1, fun hlt => (hP hon).2 (by omega)⟩
    · rw [scanned_zero]
      exact hm
  · obtain ⟨x, y, starts, -, hholds⟩ := hth.holds
    exact ((skip_isBool hj (eval_var (scanScope_skip (B t) k (2 ^ j) starts))).mono hholds.known).evalBool

/-- The threads that take part read their elements. -/
theorem ensures_readInput {m : Store} {t : Nat} {th : Thread} {Q : Claim} (hm : A.Filled m₀ f m) (ht : t < G.size)
    {x y : c.lambda.Tuple} (hholds : (scanScope (B t) k 0 false).Holds xs ys x.1 y.1 (th.scope G.ctx.captured))
    (hQ : ∀ th' (x y : c.lambda.Tuple), (scanScope (B t) k 0 false).Holds xs ys x.1 y.1 (th'.scope G.ctx.captured) →
      (on t = true → y = f 0 t 0 ∧ (t % 32 = 0 → x = f 0 t 0)) → th'.arrays = th.arrays → Q th' []) :
    (G.among A.covers (fun _ _ => False) m t).Ensures (.when active <| .block [
      readAll (c.views.map View.uncached) ys (base + c.launch.ltid),
      .when ((Exp.var ids.inBlock).equals (.int 0)) (setAll xs ys)]) Q th [] := by
  have hle := h.le_scanScope hk ht 0 false
  have hops := h.operands hnames hk ht 0 false
  have hfree := h.free hnames (E := G.among A.covers (fun _ _ => False) m t) rfl
  have hlane : 0 < A.place.laneCount := by rw [h.laneCount]; omega
  refine ensures_when ((h.active t ht).mono (hle.trans hholds.known)) (fun hon => ?_) fun hoff => ?_
  · have hhas : A.has 0 t := h.has t (h.reaches t hon)
    rw [ensures_block, ensuresAll_cons, ensuresAll_singleton]
    refine ensures_readAll hholds.known hops.rightUnknown (h.isInt_own ht hle hon) hops.rightNodup hops.rightOld hfree.2
      hholds.right ((hm.holds hhas hlane).withVolatile true) (fun p hp => ?_) (y.2.trans (f 0 t 0).2.symm)
        fun th₁ hth₁ ha₁ => ?_
    · exact keeps_among ⟨_, _, _, hhas, hlane, (tupleSlots_withVolatile true _ _ _).mp hp⟩ fun _ _ => id
    have hholds₁ := hops.setRight hholds hth₁
    have hfirst := IsBool.equals ⟨_, eval_var (hle _ _ (h.inBlock t ht)), Squad.toInt_ofNat (by omega)⟩ (.int 0)
    rw [decide_eq_decide.mpr (show ((t % 32 : Nat) : Int) = (0 : Int64).toInt ↔ t % 32 = 0 by
      rw [Int64.toInt_zero]; omega)] at hfirst
    refine ensures_when (hfirst.mono hholds₁.known) (fun hzero => ?_) fun hlater => ?_
    · refine ensures_setAll hops.leftNodup hops.leftOld hfree.1 hops.apart' hholds₁.left hholds₁.right
        (x.2.trans (f 0 t 0).2.symm) fun th' hth' ha => ?_
      exact hQ th' _ _ (hops.setLeft hholds₁ hth') (fun _ => ⟨rfl, fun _ => rfl⟩) (ha.trans ha₁)
    · exact hQ th₁ x _ hholds₁ (fun _ => ⟨rfl, fun hzero => absurd hzero (of_decide_eq_false hlater)⟩) ha₁
  · exact hQ th x y hholds (fun hon => by rw [hoff] at hon; cases hon) rfl

/-- The threads declare their variables, and read their elements. -/
theorem does_start {text : String} :
    G.DoesAll A.covers (G.Knows B own) (A.Filled m₀ f) [
      declareAll xs c.lambda.resultTypes, declareAll ys c.lambda.resultTypes,
        .declare (numbered "skip_threads" k) .i64 false,
      .declare (numbered "inactive" (k + 1)) .bool false,
      .comment text <| .when active <| .block [
        readAll (c.views.map View.uncached) ys (base + c.launch.ltid),
        .when ((Exp.var ids.inBlock).equals (.int 0)) (setAll xs ys)],
      .set (numbered "skip_threads" k) (.int 1)]
      (Held G B own k xs ys 1 fun t x y => on t = true → y = f 0 t 0 ∧ (t % 32 = 0 → x = f 0 t 0)) (A.Filled m₀ f) := by
  refine does_block.mp (Does.silent h.manned.unchecked fun m hm t ht th hth => ?_)
  have hB := h.manned.before t ht
  have old : ∀ {x}, x ∈ xs ∨ x ∈ ys → ¬New (k + 2) x := fun hx => hx.elim (hnames.left.not_new (by omega) _)
    (hnames.right.not_new (by omega) _)
  rw [ensures_block, ensuresAll_cons, ensuresAll_cons, ensuresAll_cons, ensuresAll_cons, ensuresAll_cons,
    ensuresAll_singleton,
    ensures_comment]
  refine ensures_declareAll (n := k + 2) hnames.left.nodup (fun x hx => old (.inl hx)) hnames.left.length
    fun th₁ hth₁ ha₁ => ?_
  refine ensures_declareAll (n := k + 2) hnames.right.nodup (fun x hx => old (.inr hx)) hnames.right.length
    fun th₂ hth₂ ha₂ => ?_
  have hle₁ := hth₁.le hth.1 (hB.mono (by omega)) (hnames.left.unknown hB)
  have hholds₂ : (B t).Holds xs ys _ _ (th₂.scope G.ctx.captured) :=
    ⟨hth₂.le hle₁ (hB.mono (by omega)) (hnames.right.unknown hB),
    hth₂.keeps hth₁.sees hnames.apart fun x hx => old (.inl hx), hth₂.sees⟩
  refine ensures_declare (ensures_declare ?_)
  let scope₃ := (B t).set (numbered "skip_threads" k) (.zero .i64)
  have hholds₃ : scope₃.Holds xs ys _ _ _ := hholds₂.set (Thread.set_le_scope_bind (.refl _))
    (hnames.left.ne_numbered (Nat.le_refl k)) (hnames.right.ne_numbered (Nat.le_refl k))
  have hholds₄ : (scope₃.set (numbered "inactive" (k + 1)) (.zero .bool)).Holds xs ys _ _ _ :=
    hholds₃.set (Thread.set_le_scope_bind (.refl _)) (hnames.left.ne_numbered (by omega))
      (hnames.right.ne_numbered (by omega))
  refine h.ensures_readInput hnames hk hm ht (x := zeros c.lambda) (y := zeros c.lambda) hholds₄
    fun th₅ x y hholds₅ hP ha₅ => ?_
  refine ensures_set_of_known (.refl _) (h.manned.free _ (new_numbered (by decide) hk))
    (hholds₅.known _ _ (scanScope_skip _ _ _ _))
    (eval_int 1) rfl fun th' hth' ha => ⟨⟨ha.trans (ha₅.trans (ha₂.trans (ha₁.trans hth.2))), x, y, false, hP, ?_⟩, rfl⟩
  -- The names are in the order in which the scope of the scan lists them.
  have hne : numbered "inactive" (k + 1) ≠ numbered "skip_threads" k := fun e => by
    have := (numbered_inj.mp e).2
    omega
  have := hholds₅.set hth' (hnames.left.ne_numbered (Nat.le_refl k)) (hnames.right.ne_numbered (Nat.le_refl k))
  rwa [scanScope, Scope.set_comm hne, Scope.set_set] at this

end ScansScalars

/-- The scan of blocks leaves the scanned elements in the memory and in the registers of the threads that take
    part. -/
theorem scanBlocks_does (test : Option SegmentTest) (base : Exp) (ids : BlockIds) (active : Exp) :
    Fresh.At n (c.scanBlocks test base ids active) fun m r => Registers n m c.lambda.resultTypes.length r.2 ∧
      ∀ (A : c.Area) (G : Team) (op : c.lambda.Tuple → c.lambda.Tuple → c.lambda.Tuple) (B : Nat → Scope) (own : Nat → Memory)
        (m₀ : Store) (f : c.Contents) (b : Int64) (cnt bound : Nat) (on : Nat → Bool) (crosses : Nat → Nat → Bool),
        ScansScalars A G op B n test base ids active b cnt bound on crosses →
          ∃ σ : Nat → Scope, G.Does A.covers (G.Knows B own) (A.Filled m₀ f) r.1 (G.Knows σ own)
              (A.Filled m₀ (scanned op crosses on f 5)) ∧ A.Manned G op σ m ∧ (∀ t < G.size, (B t).Le (σ t)) ∧
            ∀ t < G.size, on t = true → (σ t).Sees r.2 (scanned op crosses on f 5 0 t 0).1 := by
  refine (Fresh.At.registers (by decide) _).bind fun m₁ xs hm₁ hxs => ?_
  refine (Fresh.At.registers (by decide) _).bind fun k ys hk hys => ?_
  refine .take (.take ?_)
  refine (assign_applies c.lambda xs ys).bind fun m apply hm happly => .pure ⟨hxs.later (by omega), ?_⟩
  intro A G op B own m₀ f b cnt bound on crosses h
  have hnames : ScanNames c.lambda.resultTypes.length n k xs ys :=
    ⟨hxs.later hk, hys.earlier hm₁, hxs.disjoint hys (Nat.le_refl _)⟩
  -- In the end the registers of those that take part hold their results.
  let σ : Nat → Scope := fun t => if on t = true then (B t).withAll xs (scanned op crosses on f 5 0 t 0).1 else B t
  have hle : ∀ t < G.size, (B t).Le (σ t) := fun t ht => by
    by_cases hon : on t = true
    · rw [show σ t = _ from if_pos hon]
      exact Scope.le_withAll hxs.nodup (hxs.unknown (h.manned.before t ht))
    · rw [show σ t = _ from if_neg hon]
      exact .refl _
  have hsees : ∀ t < G.size, on t = true → (σ t).Sees xs (scanned op crosses on f 5 0 t 0).1 := fun t _ hon => by
    rw [show σ t = _ from if_pos hon]
    refine Scope.sees_withAll hxs.nodup (hxs.length.trans ?_)
    have := congrArg List.length (scanned op crosses on f 5 0 t 0).2
    rw [List.length_map] at this
    exact this.symm
  have hbefore : ∀ t < G.size, (σ t).Before m := fun t ht => by
    have hB := (h.manned.before t ht).mono (show n ≤ m by omega)
    by_cases hon : on t = true
    · rw [show σ t = _ from if_pos hon]
      exact hxs.before_withAll hB (by omega)
    · rwa [show σ t = _ from if_neg hon]
  have settle : ∀ t < G.size, ∀ th,
      Held G B own k xs ys 32 (fun t x _ => on t = true → x = scanned op crosses on f 5 0 t 0) t th →
        G.Knows σ own t th := by
    intro t ht th hth
    obtain ⟨x, y, starts, hx, hholds⟩ := hth.holds
    have hknown := (h.le_scanScope (by omega) ht 32 starts).trans hholds.known
    refine ⟨?_, hth.arrays⟩
    by_cases hon : on t = true
    · rw [show σ t = _ from if_pos hon, ← hx hon]
      exact Scope.withAll_le hknown hholds.left
    · rwa [show σ t = _ from if_neg hon]
  have rounds := (h.does_rounds hnames (by omega) own m₀ f happly).imp (fun _ _ _ => id) (fun _ => id) settle
    fun _ => id
  refine ⟨σ, does_block.mpr ((h.does_start hnames (by omega)).append (Does.single (does_comment.mpr ?_))),
    h.manned.mono hle hbefore (by omega), hle, hsees⟩
  cases test with
  | none => exact rounds
  | some test => exact rounds

end SegKernel.Collective
