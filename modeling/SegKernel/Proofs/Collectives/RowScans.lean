import SegKernel.Proofs.Collectives.ScalarScans

/-! The scan of rows does lane by lane what the scan of scalars does. Rows are not held in registers: what a
    step makes is staged in a second region, and the first rows are kept in a third one while the totals of
    the blocks lie in their places. -/

namespace SegKernel.Collective
open Exp Team

variable {c : Collective} {A : c.Area} {G : Team} {op : c.lambda.Tuple → c.lambda.Tuple → c.lambda.Tuple}
  {B : Nat → Scope} {n k cnt bound : Nat} {own : Nat → Memory} {m₀ : Store} {f : c.Contents} {active : Exp}
  {ids : BlockIds} {on : Nat → Bool} {crosses : Nat → Nat → Bool} {test : Option SegmentTest}

/-! ### Blocks of rows -/

/-- The contents when some elements of a region have been taken over from elements of another one. -/
def moved (target source : Int64) (moves : Nat → Bool) (from' : Nat → Nat) (f : c.Contents) : c.Contents := fun r e l =>
  if r = target ∧ moves e = true then f source (from' e) l else f r e l

section Moved
variable {target source : Int64} {moves : Nat → Bool} {from' : Nat → Nat}

theorem moved_target {e : Nat} (h : moves e = true) (l : Nat) :
    moved target source moves from' f target e l = f source (from' e) l :=
  if_pos ⟨rfl, h⟩

theorem moved_of_ne {r : Int64} (h : r ≠ target) (e l : Nat) : moved target source moves from' f r e l = f r e l :=
  if_neg fun hm => h hm.1

theorem moved_of_stays {e : Nat} (h : moves e = false) (r : Int64) (l : Nat) :
    moved target source moves from' f r e l = f r e l :=
  if_neg fun hm => Bool.false_ne_true (h.symm.trans hm.2)

end Moved

/-- The contents when the threads that take part in a step have staged what it makes. -/
def staged (op : c.lambda.Tuple → c.lambda.Tuple → c.lambda.Tuple) (crosses : Nat → Nat → Bool) (on : Nat → Bool)
    (k : Nat) (f : c.Contents) : c.Contents := fun r e l =>
  if r = 1 ∧ on e = true ∧ 2 ^ k ≤ e % 32 then
    if crosses (e - 2 ^ k) e then f 0 e l else op (f 0 (e - 2 ^ k) l) (f 0 e l)
  else f r e l

/-- The contents after the first steps of a scan of blocks of rows. -/
def rowSteps (op : c.lambda.Tuple → c.lambda.Tuple → c.lambda.Tuple) (crosses : Nat → Nat → Bool) (on : Nat → Bool)
    (f : c.Contents) : Nat → c.Contents
  | 0 => f
  | k + 1 =>
    moved 0 1 (fun e => decide (2 ^ k ≤ e % 32) && on e) id (staged op crosses on k (rowSteps op crosses on f k))

/-- The elements take the steps of a scan, in each lane. -/
theorem rowSteps_main (e l : Nat) :
    rowSteps op crosses on f k 0 e l = scanSteps op crosses on (fun e => f 0 e l) k e := by
  induction k generalizing e with
  | zero => rfl
  | succ k ih =>
    rw [rowSteps, scanSteps, scanStep]
    by_cases hpart : on e = true ∧ 2 ^ k ≤ e % 32
    · rw [moved_target (by rw [decide_eq_true hpart.2, hpart.1]; rfl), if_pos hpart, id, staged,
        if_pos ⟨rfl, hpart⟩, ih, ih]
    · rw [moved_of_stays, if_neg hpart, staged, if_neg fun h => hpart h.2, ih]
      rw [Bool.eq_false_iff, Ne, Bool.and_eq_true, decide_eq_true_eq]
      exact fun h => hpart h.symm

/-- Another region stays as it is. -/
theorem rowSteps_of_ne {r : Int64} (hmain : r ≠ 0) (htemp : r ≠ 1) (e l : Nat) :
    rowSteps op crosses on f k r e l = f r e l := by
  induction k with
  | zero => rfl
  | succ k ih => rw [rowSteps, moved_of_ne hmain, staged, if_neg fun h => htemp h.1, ih]

/-- The area has the rows of a group in three regions. -/
def Area.IsRows (A : c.Area) (size : Nat) : Prop := ∀ r e, A.has r e ↔ (r = 0 ∨ r = 1 ∨ r = 2) ∧ e < size

/-- Some threads copy rows from one region to another. -/
theorem does_move (hA : A.Manned G op B n) (hrows : A.IsRows G.size) {target source : Int64}
    (htarget : target = 0 ∨ target = 1 ∨ target = 2) (hsource : source = 0 ∨ source = 1 ∨ source = 2)
    (hne : target ≠ source) (part : Nat → Bool) (d s : Nat → Nat) {moves : Nat → Bool} {from' : Nat → Nat}
    {cond x y : Exp} (hcond : ∀ t < G.size, IsBool (B t) cond (part t))
    (hx : ∀ t < G.size, part t = true → x.eval (B t) = .ok (.i64 (Int64.ofNat (d t))) ∧ d t < G.size)
    (hy : ∀ t < G.size, part t = true → y.eval (B t) = .ok (.i64 (Int64.ofNat (s t))) ∧ s t < G.size)
    (hinj : ∀ t < G.size, ∀ t' < G.size, part t = true → part t' = true → d t = d t' → t = t')
    (hmoves : ∀ t < G.size, part t = true → moves (d t) = true ∧ from' (d t) = s t)
    (hall : ∀ e < G.size, moves e = true → ∃ t < G.size, part t = true ∧ d t = e) :
    G.Does A.covers (G.Knows B own) (A.Filled m₀ f) (.when cond ((c.copy ⟨target, x⟩ ⟨source, y⟩).run n).1)
      (G.Knows B own)
      (A.Filled m₀ (moved target source moves from' f)) := by
  refine hA.does_copy part d s hcond (fun t ht hp => ⟨(hx t ht hp).1, (hrows _ _).mpr ⟨htarget, (hx t ht hp).2⟩⟩)
    (fun t ht hp => ⟨(hy t ht hp).1, (hrows _ _).mpr ⟨hsource, (hy t ht hp).2⟩⟩) hinj
    (fun t _ t' _ _ _ _ e => hne (congrArg Prod.fst e)) (fun t ht hp l _ => ?_) fun r e he hother l _ => if_neg ?_
  · obtain ⟨hmove, hfrom⟩ := hmoves t ht hp
    rw [← hfrom]
    exact moved_target hmove l
  · rintro ⟨rfl, hmove⟩
    obtain ⟨t, ht, hp, rfl⟩ := hall e ((hrows _ e).mp he).2 hmove
    exact hother t ht hp rfl

/-- Some threads copy their own rows. -/
theorem does_moveOwn (own : Nat → Memory) (m₀ : Store) (f : c.Contents) (target source : Int64) (hA : A.Manned G op B n)
    (hrows : A.IsRows G.size) (htarget : target = 0 ∨ target = 1 ∨ target = 2)
    (hsource : source = 0 ∨ source = 1 ∨ source = 2) (hne : target ≠ source)
    {moves : Nat → Bool} {cond : Exp} (hcond : ∀ t < G.size, IsBool (B t) cond (moves t)) :
    G.Does A.covers (G.Knows B own) (A.Filled m₀ f)
      (.when cond ((c.copy ⟨target, c.launch.ltid⟩ ⟨source, c.launch.ltid⟩).run n).1) (G.Knows B own)
      (A.Filled m₀ (moved target source moves id f)) :=
  does_move hA hrows htarget hsource hne moves id id hcond (fun t ht _ => ⟨hA.localId t ht, ht⟩)
    (fun t ht _ => ⟨hA.localId t ht, ht⟩)
    (fun _ _ _ _ _ _ => id) (fun _ _ hp => ⟨hp, rfl⟩) fun e he hmove => ⟨e, he, hmove, rfl⟩

/-- A scan of blocks of rows. -/
structure ScansRows (A : c.Area) (G : Team) (op : c.lambda.Tuple → c.lambda.Tuple → c.lambda.Tuple) (B : Nat → Scope)
    (n : Nat) (test : Option SegmentTest) (ids : BlockIds) (active : Exp) (bound : Nat) (on : Nat → Bool)
    (crosses : Nat → Nat → Bool) :
    Prop extends ScansBlocks A G op B n test ids active bound on crosses where
  rows : A.IsRows G.size

namespace ScansRows
variable (h : ScansRows A G op B n test ids active bound on crosses)
include h

theorem le_skip (v : Value) : ∀ t < G.size, (B t).Le ((B t).set (numbered "skip_threads" n) v) :=
  h.manned.le_set (v := fun _ => v) (by decide)

/-- The threads that take part stage what a step makes. -/
theorem does_stage {j : Nat} (hj : j < 5) (hn : n + 1 ≤ k) :
    G.Does A.covers (G.Knows (fun t => (B t).set (numbered "skip_threads" n) (.i64 (Int64.ofNat (2 ^ j)))) own)
      (A.Filled m₀ f)
      (.when (((Exp.var (numbered "skip_threads" n)).le (.var ids.inBlock)).both active)
        ((c.combine (tempCell c.launch.ltid) (mainCell (c.launch.ltid - .var (numbered "skip_threads" n)))
          (mainCell c.launch.ltid)
          (test.map fun test => test (c.launch.ltid - .var (numbered "skip_threads" n)) c.launch.ltid) true).run k).1)
      (G.Knows (fun t => (B t).set (numbered "skip_threads" n) (.i64 (Int64.ofNat (2 ^ j)))) own)
      (A.Filled m₀ (staged op crosses on j f)) := by
  have hA : A.Manned G op (fun t => (B t).set (numbered "skip_threads" n) (.i64 (Int64.ofNat (2 ^ j)))) k :=
    (h.manned.set (by decide)).later hn
  have hle := h.le_skip (.i64 (Int64.ofNat (2 ^ j)))
  have takes : ∀ {t}, (decide (2 ^ j ≤ t % 32) && on t) = true → 2 ^ j ≤ t % 32 ∧ on t = true := fun hp => by
    simpa only [Bool.and_eq_true, decide_eq_true_eq] using hp
  have hhas : ∀ r, r = 0 ∨ r = 1 ∨ r = 2 → ∀ t < G.size, A.has r t := fun r hr t ht => (h.rows r t).mpr ⟨hr, ht⟩
  have apart : ∀ t t' : Nat, ((1 : Int64), t') ≠ (0, t) := fun _ _ e =>
    (by decide : (1 : Int64) ≠ 0) (congrArg Prod.fst e)
  refine hA.does_combine (fun t => decide (2 ^ j ≤ t % 32) && on t) id (fun t => t - 2 ^ j) id
    (fun t => crosses (t - 2 ^ j) t)
    (fun t ht => h.takesPart ht (Nat.le_of_lt hj) (hle t ht) Scope.set_self)
    (fun t ht _ => ⟨hA.localId t ht, hhas 1 (by simp) t ht⟩)
    (fun t ht hp => ⟨?_, hhas 0 (by simp) _ (Nat.lt_of_le_of_lt (Nat.sub_le _ _) ht)⟩)
    (fun t ht _ => ⟨hA.localId t ht, hhas 0 (by simp) t ht⟩)
    (fun t ht hp => h.drops ht (hle t ht) Scope.set_self (takes hp).1 (takes hp).2)
    (fun t _ t' _ _ _ => id) (fun t _ t' _ _ _ _ => apart _ _) (fun t _ t' _ _ _ _ => apart _ _)
    (fun t ht hp l hl => if_pos ⟨rfl, (takes hp).symm⟩) fun r e he hother l hl => if_neg ?_
  · exact h.eval_earlier ht (hle t ht) Scope.set_self (Nat.le_trans (takes hp).1 (Nat.mod_le t 32))
  · rintro ⟨rfl, hon, hd⟩
    exact hother e ((h.rows 1 e).mp he).2 (by rw [hon, decide_eq_true hd]; rfl) rfl

/-- They move it to the elements. -/
theorem does_commit {j : Nat} (hj : j < 5) (hn : n + 1 ≤ k) :
    G.Does A.covers (G.Knows (fun t => (B t).set (numbered "skip_threads" n) (.i64 (Int64.ofNat (2 ^ j)))) own)
      (A.Filled m₀ f)
      (.when (((Exp.var (numbered "skip_threads" n)).le (.var ids.inBlock)).both active)
        ((c.copy (mainCell c.launch.ltid) (tempCell c.launch.ltid)).run k).1)
      (G.Knows (fun t => (B t).set (numbered "skip_threads" n) (.i64 (Int64.ofNat (2 ^ j)))) own)
      (A.Filled m₀ (moved 0 1 (fun e => decide (2 ^ j ≤ e % 32) && on e) id f)) := by
  have hA : A.Manned G op (fun t => (B t).set (numbered "skip_threads" n) (.i64 (Int64.ofNat (2 ^ j)))) k :=
    (h.manned.set (by decide)).later hn
  exact does_moveOwn own m₀ f 0 1 hA h.rows (.inl rfl) (.inr (.inl rfl)) (by decide)
    fun t ht => h.takesPart ht (Nat.le_of_lt hj) (h.le_skip _ t ht) Scope.set_self

end ScansRows

/-- The scan of blocks of rows takes all steps. -/
theorem scanRowBlocks_does (test : Option SegmentTest) (ids : BlockIds) (active : Exp) :
    Fresh.At n (c.scanRowBlocks test ids active) fun _ code =>
      ∀ (A : c.Area) (G : Team) (op : c.lambda.Tuple → c.lambda.Tuple → c.lambda.Tuple) (B : Nat → Scope) (own : Nat → Memory)
        (m₀ : Store) (f : c.Contents) (bound : Nat) (on : Nat → Bool) (crosses : Nat → Nat → Bool),
        ScansRows A G op B n test ids active bound on crosses →
          G.Does A.covers (G.Knows B own) (A.Filled m₀ f) code (G.Knows B own)
            (A.Filled m₀ (rowSteps op crosses on f 5)) := by
  refine .take ?_
  refine Fresh.At.bind (P := fun _ code => code = (Fresh.run _ (n + 1)).1) ⟨(combine_obeys _ _ _ _ true).1, rfl⟩
    fun k stage hk hstage => ?_
  refine Fresh.At.bind (P := fun _ code => code = (Fresh.run _ k).1) ⟨(copy_obeys _ _).1, rfl⟩
    fun _ commit _ hcommit => .pure ?_
  subst hstage hcommit
  intro A G op B own m₀ f bound on crosses h
  let T : Nat → Nat → Thread → Prop := fun j =>
    G.Knows (fun t => (B t).set (numbered "skip_threads" n) (.i64 (Int64.ofNat (2 ^ j)))) own
  have declare : G.Does A.covers (G.Knows B own) (A.Filled m₀ f)
      (.declareInit (numbered "skip_threads" n) .i64 (.int 1)) (T 0) (A.Filled m₀ f) :=
    h.manned.declares (by decide) (fun _ _ => rfl) fun _ _ => rfl
  have double : ∀ j, G.Does A.covers (T j) (A.Filled m₀ (rowSteps op crosses on f (j + 1)))
      (.set (numbered "skip_threads" n) (.var (numbered "skip_threads" n) * .int 2)) (T (j + 1))
      (A.Filled m₀ (rowSteps op crosses on f (j + 1))) := fun j => by
    refine (Does.set (B := fun t => (B t).set (numbered "skip_threads" n) (.i64 (Int64.ofNat (2 ^ j))))
      (v := fun _ => .i64 (Int64.ofNat (2 ^ (j + 1)))) h.manned.unchecked
      (h.manned.free _ (new_numbered (by decide) (Nat.le_refl n))) (fun t _ => Scope.set_self) (fun t _ => ?_)
        fun _ _ => rfl).imp
      (fun _ _ _ => id) (fun _ => id) (Knows.forget fun t _ => ?_) fun _ => id
    · rw [← ofNat_pow_mul_two]
      exact eval_mul (eval_var Scope.set_self) (eval_int 2)
    · rw [Scope.set_set]
      exact .refl _
  have barrier : ∀ T M, G.Does A.covers T M (.barrier .global) T M := fun _ _ => does_barrier
  -- Five rounds: after `j` of them each row is combined with the `2 ^ j` before it.
  have loop := Does.repeatWhile (G := G) (K := A.covers)
    (c := (Exp.var (numbered "skip_threads" n)).lt (.int scanBlockSize))
    (n := 5) T (fun j => A.Filled m₀ (rowSteps op crosses on f j)) h.rounds
    (fun j hj t ht th hth => ((skip_isBool hj (eval_var Scope.set_self)).mono hth.1).evalBool) fun j hj =>
      does_block.mpr
      (.cons (h.does_stage hj (Nat.le_refl _)) (.cons (barrier _ _) (.cons (h.does_commit hj hk)
        (.cons (barrier _ _) (Does.single (double j))))))
  exact does_block.mpr (.cons declare (Does.single (loop.imp (fun _ _ _ => id) (fun _ => id)
    (Knows.forget (h.le_skip _)) fun _ => id)))

/-! ### The whole scan -/

/-- The threads of the first block that have an element. -/
def inFirst (cnt : Nat) (t : Nat) : Bool := decide (t < 32) && decide (t < cnt)

/-- The contents when the totals of the full blocks have taken the places of the first rows, which are kept. -/
def gathered (op : c.lambda.Tuple → c.lambda.Tuple → c.lambda.Tuple) (crosses : Nat → Nat → Bool) (cnt : Nat)
    (f : c.Contents) :
    c.Contents :=
  moved 0 1 (inFirst (cnt / 32)) id <| moved 1 0 (fun e => decide (32 * e + 31 < cnt)) (32 * · + 31) <|
    moved 2 0 (inFirst cnt) id (rowSteps op crosses (fun t => decide (t < cnt)) f 5)

/-- The contents when the totals have been scanned. -/
def rowTotals (op : c.lambda.Tuple → c.lambda.Tuple → c.lambda.Tuple) (crosses : Nat → Nat → Bool) (cnt : Nat)
    (f : c.Contents) :
    c.Contents :=
  rowSteps op (fun i j => crosses (32 * i + 31) (32 * j + 31)) (inFirst (cnt / 32)) (gathered op crosses cnt f) 5

/-- The contents when the rows after the first block have taken in the totals of the blocks before. -/
def rowsCarried (op : c.lambda.Tuple → c.lambda.Tuple → c.lambda.Tuple) (crosses : Nat → Nat → Bool) (cnt : Nat)
    (f : c.Contents) : c.Contents := fun r e l =>
  if r = 0 ∧ 32 ≤ e ∧ e < cnt then
    if crosses (e / 32 * 32 - 1) e then f 0 e l else op (f 0 (e / 32 - 1) l) (f 0 e l)
  else f r e l

/-- The contents after the whole scan of rows. -/
def rowScan (op : c.lambda.Tuple → c.lambda.Tuple → c.lambda.Tuple) (crosses : Nat → Nat → Bool) (cnt : Nat)
    (f : c.Contents) :
    c.Contents :=
  moved 0 2 (inFirst cnt) id (rowsCarried op crosses cnt (rowTotals op crosses cnt f))

theorem inFirst_iff {t : Nat} : inFirst cnt t = true ↔ t < 32 ∧ t < cnt := by
  rw [inFirst, Bool.and_eq_true, decide_eq_true_eq, decide_eq_true_eq]

/-- The totals are those of the full blocks. -/
theorem gathered_of_lt {j : Nat} (hcnt : cnt ≤ 1024) (hj : j < cnt / 32) (l : Nat) : gathered op crosses cnt f 0 j l =
    scanBlocksOf op crosses (fun t => decide (t < cnt)) (fun e => f 0 e l) (32 * j + 31) := by
  rw [gathered, moved_target (inFirst_iff.mpr ⟨by omega, hj⟩), id, moved_target (decide_eq_true (by omega)),
    moved_of_ne (by decide), rowSteps_main]
  rfl

/-- The rows after the first block wait. -/
theorem rowTotals_of_le {e : Nat} (he : 32 ≤ e) (l : Nat) : rowTotals op crosses cnt f 0 e l =
    scanBlocksOf op crosses (fun t => decide (t < cnt)) (fun e => f 0 e l) e := by
  have hlate : inFirst (cnt / 32) e = false := by
    rw [Bool.eq_false_iff]
    exact fun h => Nat.not_lt.mpr he (inFirst_iff.mp h).1
  rw [rowTotals, rowSteps_main, scanSteps_of_inactive hlate, gathered, moved_of_stays hlate, moved_of_ne (by decide),
    moved_of_ne (by decide), rowSteps_main]
  rfl

/-- The rows of the first block are kept. -/
theorem rowTotals_saved {e : Nat} (he : e < 32) (hlt : e < cnt) (l : Nat) : rowTotals op crosses cnt f 2 e l =
    scanBlocksOf op crosses (fun t => decide (t < cnt)) (fun e => f 0 e l) e := by
  rw [rowTotals, rowSteps_of_ne (by decide) (by decide), gathered, moved_of_ne (by decide), moved_of_ne (by decide),
    moved_target (inFirst_iff.mpr ⟨he, hlt⟩), id, rowSteps_main]
  rfl

/-- The scan combines in each lane what lies in a segment before an element. -/
theorem rowScan_eq (hop : Std.Associative op) {start : Nat → Nat} (hstart : Segmentation start)
    (hcrosses : ∀ i j, crosses i j = decide (i < start j)) (hcnt : cnt ≤ 1024) {e : Nat} (he : e < cnt) (l : Nat) :
    rowScan op crosses cnt f 0 e l = foldSpan op (fun e => f 0 e l) (start e) e := by
  have carried : rowScan op crosses cnt f 0 e l = carryIn op crosses
      (scanBlocksOf op crosses (fun t => decide (t < cnt)) fun e => f 0 e l)
      (scanBlocksOf op (fun i j => crosses (32 * i + 31) (32 * j + 31)) (inFirst (cnt / 32)) fun e =>
        gathered op crosses cnt f 0 e l) e := by
    rw [rowScan, carryIn]
    by_cases hfirst : e < 32
    · rw [moved_target (inFirst_iff.mpr ⟨hfirst, he⟩), if_pos hfirst, id, rowsCarried,
        if_neg fun h => absurd h.1 (by decide),
        rowTotals_saved hfirst he]
    · have hlate : inFirst cnt e = false := by
        rw [Bool.eq_false_iff]
        exact fun h => hfirst (inFirst_iff.mp h).1
      rw [moved_of_stays hlate, if_neg hfirst, rowsCarried, if_pos ⟨rfl, by omega, he⟩,
        rowTotals_of_le (by omega), rowTotals, rowSteps_main]
      rfl
  rw [carried]
  refine carryIn_eq cnt hop hstart (fun i j _ _ => hcrosses i j) (fun t ht => decide_eq_true ht) (fun i j _ _ => ?_)
    (fun j hj => inFirst_iff.mpr ⟨by omega, hj⟩) hcnt (fun j hj => gathered_of_lt hcnt hj l) he
  rw [hcrosses, decide_eq_decide]
  show 32 * i + 31 < start (32 * j + 31) ↔ i < start (32 * j + 31) / 32
  omega

/-- A scan of the first rows of an area. -/
structure ScansAllRows (A : c.Area) (G : Team) (op : c.lambda.Tuple → c.lambda.Tuple → c.lambda.Tuple) (B : Nat → Scope)
    (n : Nat) (test : Option SegmentTest) (w : Exp) (cnt : Nat) (crosses : Nat → Nat → Bool) : Prop where
  manned : A.Manned G op B n
  rows : A.IsRows G.size
  size : cnt ≤ G.size
  bounded : G.size ≤ 1024
  count : ∀ t < G.size, w.eval (B t) = .ok (.i64 (Int64.ofNat cnt))
  tells : ∀ t < G.size, TellsSegments test (B t) 1024 crosses
  rounds : 5 ≤ G.ctx.loopLimit

namespace ScansAllRows
variable {w : Exp} (h : ScansAllRows A G op B n test w cnt crosses) (hids : Blocked G B ids cnt)
include h

theorem mono {B' : Nat → Scope} {n' : Nat} (hA : A.Manned G op B' n') (hle : ∀ t < G.size, (B t).Le (B' t)) :
    ScansAllRows A G op B' n' test w cnt crosses where
  manned := hA
  rows := h.rows
  size := h.size
  bounded := h.bounded
  count t ht := eval_mono (hle t ht) (h.count t ht)
  tells t ht := (h.tells t ht).mono (hle t ht)
  rounds := h.rounds

include hids

/-- Whether a thread has one of the first rows, of which there are at most those of the first block. -/
theorem inFirst_isBool {t : Nat} (ht : t < G.size) :
    IsBool (B t) (ids.isFirstBlock.both (.var ids.inBounds)) (inFirst cnt t) :=
  (firstBlock_isBool (Nat.lt_trans ht h.manned.size_lt) (hids.block t ht)).both fun _ => eval_var (hids.inBounds t ht)

/-- Whether a thread has the total of a full block. -/
theorem holdsTotal_isBool {t : Nat} (ht : t < G.size) :
    IsBool (B t) (ids.isFirstBlock.both (c.launch.ltid.lt (w / .int scanBlockSize))) (inFirst (cnt / 32) t) := by
  have hsize := h.manned.size_lt
  have hcnt := h.size
  refine (firstBlock_isBool (Nat.lt_trans ht hsize) (hids.block t ht)).both fun _ => ?_
  have hblocks : (w / .int scanBlockSize).eval (B t) = .ok (.i64 (Int64.ofNat (cnt / 32))) := by
    rw [← Squad.ofNat_div (by omega) (by omega)]
    exact eval_div (h.count t ht) (eval_int scanBlockSize) (by decide)
  have htest := IsBool.lt ⟨_, h.manned.localId t ht, Squad.toInt_ofNat (by omega)⟩
    ⟨_, hblocks, Squad.toInt_ofNat (by omega)⟩
  rwa [decide_eq_decide.mpr Int.ofNat_lt] at htest

/-- The last threads of the blocks stage their rows for the totals. -/
theorem does_publish (own : Nat → Memory) (m₀ : Store) (f : c.Contents) :
    G.Does A.covers (G.Knows B own) (A.Filled m₀ f)
    (.when (ids.isLastInBlock.both (.var ids.inBounds))
      ((c.copy (tempCell (.var ids.block)) (mainCell c.launch.ltid)).run n).1)
    (G.Knows B own) (A.Filled m₀ (moved 1 0 (fun e => decide (32 * e + 31 < cnt)) (32 * · + 31) f)) := by
  have takes : ∀ {t}, (decide (t % 32 = 31) && decide (t < cnt)) = true → t % 32 = 31 ∧ t < cnt := fun hp => by
    simpa only [Bool.and_eq_true, decide_eq_true_eq] using hp
  have hcnt := h.size
  refine does_move h.manned h.rows (.inr (.inl rfl)) (.inl rfl) (by decide)
    (fun t => decide (t % 32 = 31) && decide (t < cnt)) (· / 32) id
    (fun t ht => (lastInBlock_isBool (hids.inBlock t ht)).both fun _ => eval_var (hids.inBounds t ht))
    (fun t ht _ => ⟨eval_var (hids.block t ht), Nat.lt_of_le_of_lt (Nat.div_le_self t 32) ht⟩)
    (fun t ht _ => ⟨h.manned.localId t ht, ht⟩) (fun t _ t' _ hp hp' e => ?_) (fun t _ hp => ?_) fun e _ hmove => ?_
  · have := takes hp
    have := takes hp'
    omega
  · have := takes hp
    exact ⟨decide_eq_true (by omega), (by omega : 32 * (t / 32) + 31 = t)⟩
  · have hlt := of_decide_eq_true hmove
    refine ⟨32 * e + 31, by omega, ?_, by omega⟩
    rw [decide_eq_true hlt, decide_eq_true (show (32 * e + 31) % 32 = 31 by omega)]
    rfl

/-- The rows after the first block take in the totals of the blocks before. -/
theorem does_carryIn (own : Nat → Memory) (m₀ : Store) (f : c.Contents) :
    G.Does A.covers (G.Knows B own) (A.Filled m₀ f)
    (.when (ids.isFirstBlock.negation.both (.var ids.inBounds)) ((c.combine (mainCell c.launch.ltid)
      (mainCell (.var ids.block - .int 1)) (mainCell c.launch.ltid)
      (test.map fun test => test (.var ids.block * .int scanBlockSize - .int 1) c.launch.ltid) true).run n).1)
    (G.Knows B own) (A.Filled m₀ (rowsCarried op crosses cnt f)) := by
  have takes : ∀ {t}, (!decide (t < 32) && decide (t < cnt)) = true → 32 ≤ t ∧ t < cnt := fun hp => by
    simpa only [Bool.and_eq_true, Bool.not_eq_true', decide_eq_false_iff_not, Nat.not_lt, decide_eq_true_eq] using hp
  have hhas : ∀ t < G.size, A.has 0 t := fun t ht => (h.rows 0 t).mpr ⟨.inl rfl, ht⟩
  refine h.manned.does_combine (fun t => !decide (t < 32) && decide (t < cnt)) id (fun t => t / 32 - 1) id
    (fun t => crosses (t / 32 * 32 - 1) t)
    (fun t ht => (firstBlock_isBool (Nat.lt_trans ht h.manned.size_lt) (hids.block t ht)).negation.both fun _ =>
      eval_var (hids.inBounds t ht))
    (fun t ht _ => ⟨h.manned.localId t ht, hhas t ht⟩) (fun t ht hp => ⟨?_, hhas _ (by omega)⟩)
    (fun t ht _ => ⟨h.manned.localId t ht, hhas t ht⟩) (fun t ht hp => ?_) (fun t _ t' _ _ _ => id)
    (fun t ht t' _ _ hp' _ e => ?_) (fun t _ t' _ _ _ hne e => hne (congrArg Prod.snd e))
    (fun t _ hp l _ => if_pos ⟨rfl, takes hp⟩)
    fun r e he hother l _ => if_neg ?_
  · exact hids.eval_before ht (takes hp).1
  · have hlater := (takes hp).1
    have htells := h.tells t ht
    cases test with
    | none => exact htells _ _
    | some test =>
      exact htells (B t) (.refl _) _ _ _ _ (by omega) (Nat.lt_of_lt_of_le ht h.bounded) (hids.eval_lastBefore ht hlater)
        (h.manned.localId t ht)
  -- The totals lie in the first block, which takes in none itself.
  · have : t' = t / 32 - 1 := congrArg Prod.snd e
    have := (takes hp').1
    have := h.bounded
    omega
  · rintro ⟨rfl, hle, hlt⟩
    refine hother e ((h.rows 0 e).mp he).2 ?_ rfl
    rw [decide_eq_true hlt, decide_eq_false (Nat.not_lt.mpr hle)]
    rfl

end ScansAllRows

/-- The scan of rows. It touches no other rows than those of the group. -/
theorem scanRows_does (test : Option SegmentTest) (w : Exp) : Fresh.At n (c.scanRows test w) fun _ code =>
    ∀ (A : c.Area) (G : Team) (op : c.lambda.Tuple → c.lambda.Tuple → c.lambda.Tuple) (B : Nat → Scope) (own : Nat → Memory)
      (m₀ : Store) (f : c.Contents) (cnt : Nat) (crosses : Nat → Nat → Bool),
        ScansAllRows A G op B n test w cnt crosses →
        G.Does A.covers (G.Knows B own) (A.Filled m₀ f) code (G.Knows B own)
          (A.Filled m₀ (rowScan op crosses cnt f)) := by
  refine (blocks_does w).bind ?_
  rintro _ ⟨ids, declareIds⟩ - ⟨rfl, hdeclare⟩
  refine (scanRowBlocks_does test ids (.var ids.inBounds)).bind fun n₁ blockScan hn₁ hblockScan => ?_
  refine Fresh.At.bind (P := fun _ code => code = (Fresh.run _ n₁).1) ⟨(copy_obeys _ _).1, rfl⟩
    fun n₂ save hn₂ hsave => ?_
  refine Fresh.At.bind (P := fun _ code => code = (Fresh.run _ n₂).1) ⟨(copy_obeys _ _).1, rfl⟩
    fun n₃ publish hn₃ hpublish => ?_
  refine Fresh.At.bind (P := fun _ code => code = (Fresh.run _ n₃).1) ⟨(copy_obeys _ _).1, rfl⟩
    fun n₄ gather hn₄ hgather => ?_
  refine (scanRowBlocks_does (test.map SegmentTest.ofBlocks) ids _).bind fun n₅ carryScan hn₅ hcarryScan => ?_
  refine Fresh.At.bind (P := fun _ code => code = (Fresh.run _ n₅).1) ⟨(combine_obeys _ _ _ _ true).1, rfl⟩
    fun n₆ carryIn hn₆ hcarryIn => ?_
  refine Fresh.At.bind (P := fun _ code => code = (Fresh.run _ n₆).1) ⟨(copy_obeys _ _).1, rfl⟩
    fun n₇ restore hn₇ hrestore => .pure ?_
  subst hsave hpublish hgather hcarryIn hrestore
  intro A G op B own m₀ f cnt crosses h
  obtain ⟨σ, declareIds, hA, hle, hids⟩ := hdeclare A G op B own A.covers (A.Filled m₀ f) cnt h.manned h.size h.count
  have hσ : ∀ {m}, n + 3 ≤ m → ScansAllRows A G op σ m test w cnt crosses := fun hm => h.mono (hA.later hm) hle
  have blockScan := hblockScan A G op σ own m₀ f 1024 (fun t => decide (t < cnt)) crosses
    { manned := hA
      inBlock := hids.inBlock
      active := fun t ht => eval_var (hids.inBounds t ht)
      lt := fun t ht => Nat.lt_of_lt_of_le (of_decide_eq_true ht) (Nat.le_trans h.size h.bounded)
      tells := fun t ht => (h.tells t ht).mono (hle t ht)
      rounds := h.rounds
      rows := h.rows }
  -- The rows after the block scans, with those of the first block saved, and with the totals of the blocks
  -- published.
  let scanned := rowSteps op crosses (fun t => decide (t < cnt)) f 5
  let kept := moved 2 0 (inFirst cnt) id scanned
  let published := moved 1 0 (fun e => decide (32 * e + 31 < cnt)) (32 * · + 31) kept
  have save := does_moveOwn own m₀ scanned 2 0 (hA.later hn₁) h.rows (by decide) (by decide) (by decide)
    fun t ht => (hσ hn₁).inFirst_isBool hids ht
  have publish := (hσ (Nat.le_trans hn₁ hn₂)).does_publish hids own m₀ kept
  have hn₃ : n + 3 ≤ n₃ := by omega
  have gather := does_moveOwn own m₀ published 0 1 (hA.later hn₃) h.rows (by decide) (by decide) (by decide)
    fun t ht => (hσ hn₃).holdsTotal_isBool hids ht
  have hn₄ : n + 3 ≤ n₄ := by omega
  have carryScan := hcarryScan A G op σ own m₀ (gathered op crosses cnt f) 32 (inFirst (cnt / 32))
    (fun i j => crosses (32 * i + 31) (32 * j + 31))
    { manned := hA.later hn₄
      inBlock := hids.inBlock
      active := fun t ht => (hσ hn₄).holdsTotal_isBool hids ht
      lt := fun t ht => (inFirst_iff.mp ht).1
      tells := fun t ht => ((h.tells t ht).mono (hle t ht)).ofBlocks
      rounds := h.rounds
      rows := h.rows }
  have carryIn := (hσ (show n + 3 ≤ n₅ by omega)).does_carryIn hids own m₀ (rowTotals op crosses cnt f)
  have hn₆ : n + 3 ≤ n₆ := by omega
  have restore := does_moveOwn own m₀ (rowsCarried op crosses cnt (rowTotals op crosses cnt f)) 0 2
    (hA.later hn₆) h.rows
    (by decide) (by decide) (by decide) fun t ht => (hσ hn₆).inFirst_isBool hids ht
  exact does_block.mpr (.cons declareIds (.cons blockScan (.cons (does_comment.mpr save) (.cons does_barrier
    (.cons (does_comment.mpr publish)
      (.cons does_barrier (.cons gather (.cons does_barrier (.cons (does_comment.mpr carryScan)
    (.cons (does_comment.mpr carryIn) (.cons does_barrier (.cons (does_comment.mpr restore)
    (Does.single (does_barrier.imp (fun _ _ _ => id) (fun _ => id) (Knows.forget hle) fun _ => id))))))))))))))

end SegKernel.Collective
