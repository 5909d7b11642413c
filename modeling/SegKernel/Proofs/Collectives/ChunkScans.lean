import SegKernel.Proofs.Collectives.Chunks
import SegKernel.Proofs.Collectives.ScalarScans

/-! The scan of more scalars than threads. The first element of a chunk takes in the last result of the chunk
    before, unless a segment starts at it; the scan of the chunk then goes on from there. -/

namespace SegKernel.Collective
open Exp Team

variable {c : Collective} {A : (c.onShared (.int 0)).Area} {G : Team}
  {op : c.lambda.Tuple → c.lambda.Tuple → c.lambda.Tuple} {B : Nat → Scope} {n k cnt : Nat} {own : Nat → Memory}
  {m₀ : Store} {start : Nat → Nat} {a : Nat → c.lambda.Tuple} {test : Option SegmentTest}
  {answer : Int64 → Int64 → Bool} {base : Exp}

/-- The elements when the first `done` of them have been scanned. -/
def scannedUpTo (op : c.lambda.Tuple → c.lambda.Tuple → c.lambda.Tuple) (start : Nat → Nat) (a : Nat → c.lambda.Tuple)
    (done : Nat) : c.Contents :=
  fun _ e _ => if e < done then foldSpan op a (start e) e else a e

/-- A scan that goes on where one has ended. -/
theorem foldSpan_scannedUpTo (hstart : Segmentation start) {e : Nat} (he : k ≤ e) (r : Int64) (l : Nat) :
    foldSpan op (fun i => scannedUpTo op start a (k + 1) r i l) (max (start e) k) e = foldSpan op a (start e) e := by
  have hle := hstart.le e
  have later : ∀ i, k < i → scannedUpTo op start a (k + 1) r i l = a i := fun i hi => if_neg (by omega)
  by_cases hcross : k < start e
  · rw [Nat.max_eq_left (Nat.le_of_lt hcross)]
    exact foldSpan_congr hle fun i hi _ => later i (by omega)
  · rw [Nat.max_eq_right (Nat.le_of_not_lt hcross)]
    refine foldSpan_of_carried (Nat.le_of_not_lt hcross) he ?_ later
    rw [scannedUpTo, if_pos (Nat.lt_succ_self k), hstart.same (i := k) (j := e) (Nat.le_of_not_lt hcross) he]

/-- A scan of elements of which the threads work on one chunk after another. -/
structure ScansChunks (A : (c.onShared (.int 0)).Area) (G : Team)
    (op : c.lambda.Tuple → c.lambda.Tuple → c.lambda.Tuple) (B : Nat → Scope) (n : Nat) (test : Option SegmentTest)
    (start : Nat → Nat) (answer : Int64 → Int64 → Bool) (cnt : Nat) :
    Prop where
  manned : A.Manned G op B n
  place : A.place = .shared 0
  has : ∀ r e, A.has r e ↔ r = 0 ∧ e < cnt
  bounded : G.size ≤ 1024
  segmentation : Segmentation start
  answers : ∀ t < G.size, AnswersSegments test (B t) answer
  finds : ∀ i j : Nat, i < j → j < 2 ^ 63 → answer (Int64.ofNat i) (Int64.ofNat j) = decide (i < start j)
  fits : cnt + G.size < 2 ^ 63
  rounds : 5 ≤ G.ctx.loopLimit

/-- The test of whether a segment starts at the first element of a chunk. -/
def startsAt (test : Option SegmentTest) (first : Exp) : Exp :=
  match test with
  | some test => test (first - .int 1) first
  | none => .bool false

namespace ScansChunks

theorem mono {B' : Nat → Scope} {n' : Nat} (h : ScansChunks A G op B n test start answer cnt) (hA : A.Manned G op B' n')
    (hle : ∀ t < G.size, (B t).Le (B' t)) : ScansChunks A G op B' n' test start answer cnt where
  manned := hA
  place := h.place
  has := h.has
  bounded := h.bounded
  segmentation := h.segmentation
  answers t ht := (h.answers t ht).mono (hle t ht)
  finds := h.finds
  fits := h.fits
  rounds := h.rounds

variable (h : ScansChunks A G op B n test start answer cnt) {first : Exp}
include h

/-- Whether a thread takes the last result before an element into it. -/
theorem carries_isBool (hfirst : ∀ t < G.size, first.eval (B t) = .ok (.i64 (Int64.ofNat k))) (hk : k < cnt) {t : Nat}
    (ht : t < G.size) : IsBool (B t) (((first.gt (.int 0)).both (c.launch.ltid.equals (.int 0))).both
      (startsAt test first).negation) ((decide (0 < k) && decide (t = 0)) && decide (start k < k)) := by
  have hfits := h.fits
  have hpositive := IsBool.gt ⟨_, hfirst t ht, Squad.toInt_ofNat (by omega)⟩ (.int 0)
  have hzero := IsBool.equals ⟨_, h.manned.localId t ht, Squad.toInt_ofNat (by omega)⟩ (.int 0)
  have hle := h.segmentation.le k
  have hcrosses : 0 < k → IsBool (B t) (startsAt test first) (!decide (start k < k)) := by
    intro hpos
    have hanswer := h.finds (k - 1) k (by omega) (by omega)
    rw [show decide (k - 1 < start k) = !decide (start k < k) by rw [← decide_not, decide_eq_decide]; omega] at hanswer
    have hanswers := h.answers t ht
    cases test with
    | none => rw [← hanswer, hanswers]; exact .bool false
    | some test =>
      have := hanswers _ (.refl _) _ _ _ _ (eval_sub (hfirst t ht) (eval_int 1)) (hfirst t ht)
      rwa [Squad.ofNat_sub_one hpos, hanswer] at this
  have hcondition := (hpositive.both fun _ => hzero).both (y := (startsAt test first).negation)
    (b := decide (start k < k))
    fun hpart => by
      have := (hcrosses (by simpa using (Bool.and_eq_true_iff.mp hpart).1)).negation
      rwa [Bool.not_not] at this
  simpa using hcondition

/-- The first element of a chunk takes in the last result of the chunk before. -/
theorem does_carry (own : Nat → Memory) (m₀ : Store) (a : Nat → c.lambda.Tuple)
    (hfirst : ∀ t < G.size, first.eval (B t) = .ok (.i64 (Int64.ofNat k))) (hk : k < cnt) :
    G.Does A.covers (G.Knows B own) (A.Filled m₀ (scannedUpTo op start a k))
      (.when (((first.gt (.int 0)).both (c.launch.ltid.equals (.int 0))).both (startsAt test first).negation)
        (((c.onShared (.int 0)).combine { element := first } { element := first - .int 1 } { element := first }
          none false).run
          n).1)
      (G.Knows B own) (A.Filled m₀ (scannedUpTo op start a (k + 1))) := by
  have hle := h.segmentation.le k
  have takes : ∀ {t}, ((decide (0 < k) && decide (t = 0)) && decide (start k < k)) = true → 0 < k ∧ t = 0 ∧
    start k < k :=
    fun hp => by simpa [and_assoc] using hp
  have hhas : A.has 0 k := (h.has 0 k).mpr ⟨rfl, hk⟩
  refine h.manned.does_combine (fun t => (decide (0 < k) && decide (t = 0)) && decide (start k < k)) (fun _ => k)
    (fun _ => k - 1)
    (fun _ => k) (fun _ => false) (fun t ht => h.carries_isBool hfirst hk ht) (fun t ht _ => ⟨hfirst t ht, hhas⟩)
    (fun t ht hp => ⟨?_, (h.has 0 _).mpr ⟨rfl, by omega⟩⟩) (fun t ht _ => ⟨hfirst t ht, hhas⟩) (fun _ _ _ => rfl)
    (fun t ht t' ht' hp hp' _ => (takes hp).2.1.trans (takes hp').2.1.symm)
    (fun t ht t' ht' hp hp' hne => absurd ((takes hp').2.1.trans (takes hp).2.1.symm) hne)
    (fun t ht t' ht' hp hp' hne => absurd ((takes hp').2.1.trans (takes hp).2.1.symm) hne)
    (fun t ht hp l _ => ?_) fun r e hin hother l _ => ?_
  · rw [← Squad.ofNat_sub_one (takes hp).1]
    exact eval_sub (hfirst t ht) (eval_int 1)
  · obtain ⟨hpos, -, hcross⟩ := takes hp
    rw [if_neg Bool.false_ne_true, scannedUpTo, scannedUpTo, scannedUpTo, if_pos (by omega), if_pos (by omega),
      if_neg (by omega), h.segmentation.foldSpan_start hpos, if_neg (by omega)]
  · rw [scannedUpTo, scannedUpTo]
    by_cases he : e = k
    · subst he
      obtain rfl := ((h.has r e).mp hin).1
      -- Nothing is taken in, so a segment starts here.
      have hstarts : start e = e := by
        by_contra hne
        exact hother 0 G.pos (by simp; omega) rfl
      rw [if_pos (Nat.lt_succ_self e), if_neg (Nat.lt_irrefl e), hstarts, foldSpan_self]
    · congr 1
      exact propext (by omega)

/-- A chunk is scanned, of which the first element has taken in what was before. -/
theorem does_chunk (hop : Std.Associative op) (own : Nat → Memory) (m₀ : Store) (a : Nat → c.lambda.Tuple) {size : Exp}
    (hn : n ≤ k) {first : Nat} (hfirst : ∀ t < G.size, base.eval (B t) = .ok (.i64 (Int64.ofNat first)))
    (hsize : ∀ t < G.size, size.eval (B t) = .ok (.i64 (Int64.ofNat (min G.size (cnt - first))))) (hlt : first < cnt) :
    G.Does A.covers (G.Knows B own) (A.Filled m₀ (scannedUpTo op start a (first + 1)))
      (((c.onShared base).scan (test.map (·.shift base)) size).run k).1
      (G.Knows B own) (A.Filled m₀ (scannedUpTo op start a (first + G.size))) := by
  have hpos := G.pos
  have hfits := h.fits
  have hbounded := h.bounded
  obtain ⟨width, hwidth⟩ : ∃ width, width = min G.size (cnt - first) := ⟨_, rfl⟩
  let crosses : Nat → Nat → Bool :=
    fun i j => answer (Int64.ofNat i + Int64.ofNat first) (Int64.ofNat j + Int64.ofNat first)
  have hwindow : ∀ e < width, A.has 0 (first + e) := fun e he => (h.has 0 _).mpr ⟨rfl, by omega⟩
  have hfinds : Finds crosses (fun e => start (first + e) - first) width := by
    intro i j hij hj
    show answer _ _ = decide (i < start (first + j) - first)
    rw [← Int64.ofNat_add, ← Int64.ofNat_add, h.finds _ _ (by omega) (by omega), decide_eq_decide, Nat.add_comm j first]
    omega
  -- The chunk is scanned as a window, whose elements count from zero.
  refine Area.does_of_window base h.place hwindow
    (scanResult op crosses width fun _ e l => scannedUpTo op start a (first + 1) 0 (first + e) l)
    (fun r e he => ((h.has r e).mp he).1) (fun m => ?_) (fun e he => ?_) fun i hi hout => ?_
  · refine does_comment.mpr ((scanScalars_does (c := c.onShared base) (n := k) (test.map (·.shift base)) base size).2
      _ G op B own m _ (Int64.ofNat first) width crosses ?_)
    refine ⟨(h.manned.later hn).window fun t ht => ?_, ?_, fun _ _ => Iff.rfl, by omega, hbounded, hfirst,
      fun t ht => hwidth ▸ hsize t ht, fun t ht => (h.answers t ht).shift (hfirst t ht) 1024, h.rounds⟩
    · rw [Int64.zero_add]
      exact hfirst t ht
    · show Site.shared (0 + Int64.ofNat first) = _
      rw [Int64.zero_add]
  · have hle := h.segmentation.le (first + e)
    have hmax : first + (start (first + e) - first) = max (start (first + e)) first := by omega
    have hshift : foldSpan op (fun i => scannedUpTo op start a (first + 1) 0 (first + i) 0)
      (start (first + e) - first) e = _ :=
      foldSpan_shift (a := fun i => scannedUpTo op start a (first + 1) 0 i 0) (by omega)
    rw [scanResult_eq hop (h.segmentation.shift first) hfinds (by omega) he, hshift, hmax,
      foldSpan_scannedUpTo h.segmentation (Nat.le_add_right first e), scannedUpTo, if_pos (by omega)]
  · have hlt' := ((h.has 0 i).mp hi).2
    have houtside : i < first ∨ first + G.size ≤ i := by
      by_contra hin
      exact hout (i - first) (by omega) (by omega)
    rw [scannedUpTo, scannedUpTo]
    congr 1
    exact propext (by omega)

end ScansChunks

/-- The scan of all chunks. It touches no other elements than the first `cnt`. -/
theorem scanChunks_does (hop : Std.Associative op) (test : Option SegmentTest) (w : Exp) :
    Fresh.At n (scanChunks c.launch c.lambda c.views test w) fun _ code =>
      ∀ (A : (c.onShared (.int 0)).Area) (G : Team) (B : Nat → Scope) (own : Nat → Memory) (m₀ : Store) (a : Nat → c.lambda.Tuple)
        (start : Nat → Nat) (answer : Int64 → Int64 → Bool) (cnt : Nat), ScansChunks A G op B n test start answer cnt →
        (∀ t < G.size, w.eval (B t) = .ok (.i64 (Int64.ofNat cnt))) → (cnt + G.size - 1) / G.size ≤ G.ctx.loopLimit →
          G.Does A.covers (G.Knows B own) (A.Filled m₀ (scannedUpTo op start a 0)) code (G.Knows B own)
            (A.Filled m₀ (scannedUpTo op start a ((cnt + G.size - 1) / G.size * G.size))) := by
  refine (coverChunks_does (c := c.onShared (.int 0)) w).bind ?_
  rintro _ ⟨first, size, nest⟩ - ⟨rfl, hnest⟩
  refine Fresh.At.bind (P := fun _ code => code = (Fresh.run _ (n + 4)).1) ⟨(combine_obeys _ _ _ _ false).1, rfl⟩ ?_
  rintro m _ hm rfl
  refine Fresh.At.bind (P := fun _ code => code = (Fresh.run _ m).1) ⟨?_, rfl⟩ ?_
  · exact (scanScalars_does (c := c.onShared first) (n := m) (test.map (·.shift first)) first size).1
  rintro m' _ hm' rfl
  refine .pure fun A G B own m₀ a start answer cnt h hw hlimit => ?_
  have hall := hnest (.block [
    .comment "possibly incorporate carry" (.when (((first.gt (.int 0)).both (c.launch.ltid.equals (.int 0))).both
      (startsAt test first).negation) (((c.onShared (.int 0)).combine { element := first } { element := first - .int 1 }
        { element := first } none false).run (n + 4)).1),
    .barrier .shared,
    (((c.onShared first).scan (test.map (·.shift first)) size).run m).1]) A G op B own A.covers
    (fun k => A.Filled m₀ (scannedUpTo op start a (k * G.size))) cnt h.manned hw h.fits hlimit
    fun k σ hk hA hle hfirst hsize => ?_
  · rw [Nat.zero_mul] at hall
    exact hall
  have hσ : ScansChunks A G op σ (n + 4) test start answer cnt := h.mono hA hle
  have carry := hσ.does_carry own m₀ a hfirst hk
  have scan := hσ.does_chunk hop own m₀ a hm hfirst hsize hk
  rw [Nat.succ_mul]
  exact does_block.mpr (.cons (does_comment.mpr carry) (.cons does_barrier (Does.single scan)))

/-! ### Whole groups -/

variable {ctx : GroupContext} {s : GroupState}

/-- A whole group scans any number of elements that lie in shared memory. Each one becomes the combination of
    what lies before it in its segment, from left to right, in waves of any width and with any order of the
    threads. The last result of a chunk is taken into the next chunk just where no segment starts. Nothing
    else changes. -/
theorem scanChunks_folds (schedule : Schedule) {w : Exp} (hstarts : c.Starts ctx s n op) (hop : Std.Associative op)
    (hsegments : s.Segments ctx n test start) (hw : s.Knows ctx n w fun _ => Int64.ofNat cnt)
    (hsize : ctx.groupSize.toInt ≤ scanBlockSize.toInt ^ 2) (hfits : Fits (cnt + ctx.groupSize.toInt))
    (hrounds : 5 ≤ ctx.loopLimit) (hchunks : (cnt + ctx.groupSize.toInt - 1) / ctx.groupSize.toInt ≤ ctx.loopLimit)
    (ha : ∀ e < cnt, (Site.shared 0).Shows c.views s.store 0 e 0 (a e).1) :
    ∃ s', Run.exec ctx ((scanChunks c.launch c.lambda c.views test w).run n).1
      (schedule.order ctx.groupSize.toInt.toNat) s =
        .ok () s' ∧
      (∀ e < cnt, (Site.shared 0).Shows c.views s'.store 0 e 0 (foldSpan op a (start e) e).1) ∧
      (∀ k, 0 < k → k * ctx.groupSize.toInt.toNat < cnt →
        let first := k * ctx.groupSize.toInt.toNat
        (Site.shared 0).Shows c.views s'.store 0 first 0
          (if start first = first then a first else op (foldSpan op a (start (first - 1)) (first - 1)) (a first)).1) ∧
      (∀ space array, s'.store.layout? space array = s.store.layout? space array) ∧
      (∀ p, (∀ e < cnt, ¬tupleSlots c.views e p) → s'.store.bits? p = s.store.bits? p) ∧
      ∀ t < ctx.groupSize.toInt.toNat, (s'.thread t).arrays = (s.thread t).arrays := by
  let G := hstarts.team schedule
  have hsize' : ctx.groupSize.toInt = G.size := hstarts.size_eq schedule
  have hpos := G.pos
  have hfits' : cnt + G.size < 2 ^ 63 := by
    unfold Fits at hfits
    omega
  have hbound : G.size ≤ 1024 := by
    rw [hsize'] at hsize
    exact Int.ofNat_le.mp hsize
  have hcnt : cnt < 2 ^ 63 := by omega
  obtain ⟨answer, hanswers, hfinds⟩ := hsegments.answers
  have hscans : ScansChunks (hstarts.scalars cnt hcnt) G op (knowledge s ctx n) n test start answer cnt :=
    ⟨hstarts.manned_scalars schedule (Nat.le_trans (by decide) hrounds), rfl, fun _ _ => Iff.rfl, hbound,
      hsegments.segmentation, hanswers, hfinds, hfits', hrounds⟩
  have hdoes := (scanChunks_does (n := n) hop test w).2 _ G (knowledge s ctx n) (fun t => (s.thread t).arrays)
    s.store a start
    answer cnt hscans (fun t ht => eval_knowledge hw ht) (chunks_le hsize' hpos hchunks)
  obtain ⟨⟨s', hrun, hm, hthreads⟩, -⟩ := hstarts.run schedule hdoes (hstarts.filled_scalars ha)
  have hall := @le_chunks_mul cnt _ hpos
  -- After the last turn all elements up to `cnt` are scanned.
  have hshows : ∀ e < cnt, (Site.shared 0).Shows c.views s'.store 0 e 0 (foldSpan op a (start e) e).1 := fun e he => by
    have := hm.shows (r := 0) (e := e) (l := 0) ⟨rfl, he⟩ Nat.one_pos
    rwa [scannedUpTo, if_pos (by omega)] at this
  refine ⟨s', hrun, hshows, fun k hk hlt => ?_, hm.layout, fun p hp => hm.frame p fun hcovers => ?_,
    fun t ht => (hthreads t ht).2⟩
  · have hfirst : 0 < k * ctx.groupSize.toInt.toNat := Nat.mul_pos hk hpos
    have := hshows _ hlt
    rwa [hsegments.segmentation.foldSpan_start hfirst] at this
  · obtain ⟨e, he, hslot⟩ := hstarts.covers_scalars hcovers
    exact hp e he hslot

/-- Two threads scan seven scalars in segments of three, so a segment starts within a chunk and another one at
    the start of a chunk. The threads take their turns in reverse. -/
theorem cells_scanChunks_folds : ∃ s',
    Run.exec uncheckedContext ((scanChunks pairRows.launch pairRows.lambda (pairScalars (.int 0)).views
      (some (crossesSegment (.int 3))) (.int 7)).run 0).1 [1, 0] (cellState 7 id) = .ok () s' ∧
      ∀ e < 7, (Site.shared 0).Shows (pairScalars (.int 0)).views s'.store 0 e 0
        (foldSpan sum (fun e => single (Int64.ofNat e)) (e / (3 : Int64).toInt.toNat * (3 : Int64).toInt.toNat)
          e).1 := by
  have hsize : (cellState 7 id).Knows uncheckedContext 0 (.int 3) fun _ => 3 :=
    cells_knows (counted_knows (by decide) (by decide +kernel))
  have hcount : (cellState 7 id).Knows uncheckedContext 0 (.int 7) fun _ => Int64.ofNat 7 :=
    cells_knows (counted_knows (by decide) (by decide +kernel))
  have hspot : ∀ e < 7, ((Site.shared 0).spot 0 e 0).toInt.toNat = e ∧ 0 ≤ ((Site.shared 0).spot 0 e 0).toInt := by
    decide +kernel
  obtain ⟨s', hrun, hshows, -⟩ := scanChunks_folds (c := pairScalars (.int 0)) .reverse cells_starts sum_associative
    (.ofSize hsize (by decide)) hcount (by decide) (by unfold Fits; decide) (by decide) (by decide)
    (a := fun e => single (Int64.ofNat e)) fun e he => ⟨(hspot e he).2, by
      rw [(hspot e he).1]
      exact cells_holds 7 id he⟩
  exact ⟨s', hrun, hshows⟩

end SegKernel.Collective
