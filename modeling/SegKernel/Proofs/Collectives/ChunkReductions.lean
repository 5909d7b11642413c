import SegKernel.Proofs.Collectives.Chunks
import SegKernel.Proofs.Collectives.Reducing
import SegKernel.Proofs.Collectives.ScalarScans

/-! The reduction of more scalars than threads. The result so far lies in the first element; it is taken into
    the first element of each next chunk, and the result of the chunk is copied back. -/

namespace SegKernel.Collective
open Exp Team

variable {c : Collective} {A : (c.onShared (.int 0)).Area} {G : Team}
  {op : c.lambda.Tuple → c.lambda.Tuple → c.lambda.Tuple} {B : Nat → Scope} {n k m first done cnt : Nat}
  {own : Nat → Memory} {m₀ : Store} {a : Nat → c.lambda.Tuple} {f : c.Contents} {base : Exp}

/-- The first `done` elements have been reduced into the first one, and the elements after them are as they
    were. -/
structure ReducedUpTo (op : c.lambda.Tuple → c.lambda.Tuple → c.lambda.Tuple) (a : Nat → c.lambda.Tuple) (done : Nat)
    (f : c.Contents) : Prop where
  first : 0 < done → f 0 0 0 = foldSpan op a 0 (done - 1)
  rest : ∀ e, done ≤ e → f 0 e 0 = a e

/-- The elements when the first one of a chunk has taken in the result so far. -/
def carriedIn (op : c.lambda.Tuple → c.lambda.Tuple → c.lambda.Tuple) (first : Nat) (f : c.Contents) : c.Contents :=
  fun r e l => if 0 < first ∧ e = first then op (f 0 0 0) (f 0 first 0) else f r e l

/-- The elements when a chunk has been reduced. -/
def chunkReduced (op : c.lambda.Tuple → c.lambda.Tuple → c.lambda.Tuple) (first width steps : Nat) (f : c.Contents) :
    c.Contents :=
  fun r e l => if first ≤ e ∧ e < first + width then
    reduced op width (fun _ e l => carriedIn op first f 0 (first + e) l) steps 0 (e - first) l
  else carriedIn op first f r e l

/-- The elements when the result of a chunk has been copied back. -/
def carriedOut (op : c.lambda.Tuple → c.lambda.Tuple → c.lambda.Tuple) (first width steps : Nat) (f : c.Contents) :
    c.Contents :=
  fun r e l =>
    if 0 < first ∧ e = 0 then chunkReduced op first width steps f 0 first 0 else
      chunkReduced op first width steps f r e l

/-- A chunk that takes in the result so far leads to the result with its elements. -/
theorem ReducedUpTo.carriedOut (h : ReducedUpTo op a first f) (hop : Std.Associative op) {width steps : Nat}
    (hpos : 0 < width) (hsteps : width ≤ 2 ^ steps) :
    ReducedUpTo op a (first + width) (carriedOut op first width steps f) := by
  have head : carriedIn op first f 0 first 0 = foldSpan op a 0 first := by
    rw [carriedIn]
    by_cases hfirst : 0 < first
    · have hsucc : foldSpan op a 0 (first - 1 + 1) = _ := foldSpan_succ (Nat.zero_le (first - 1))
      rw [Nat.sub_add_cancel hfirst] at hsucc
      rw [if_pos ⟨hfirst, rfl⟩, h.first hfirst, h.rest first (Nat.le_refl _), hsucc]
    · obtain rfl : first = 0 := by omega
      rw [if_neg (by omega), h.rest 0 (Nat.le_refl 0), foldSpan_self]
  have tail : ∀ e, first < e → carriedIn op first f 0 e 0 = a e := fun e he => by
    rw [carriedIn, if_neg (by omega), h.rest e (Nat.le_of_lt he)]
  have result : chunkReduced op first width steps f 0 first 0 = foldSpan op a 0 (first + width - 1) := by
    have hshift : foldSpan op (fun e => carriedIn op first f 0 (first + e) 0) 0 (width - 1) = _ :=
      foldSpan_shift (a := fun e => carriedIn op first f 0 e 0) (Nat.zero_le (width - 1))
    rw [chunkReduced, if_pos (by omega), Nat.sub_self, reduced, if_pos rfl, reduceSteps_zero hop hpos hsteps, hshift,
      Nat.add_zero, foldSpan_of_carried (Nat.zero_le first) (by omega) head tail, Nat.add_sub_assoc hpos]
  refine ⟨fun _ => ?_, fun e he => ?_⟩
  · rw [Collective.carriedOut]
    by_cases hfirst : 0 < first
    · rw [if_pos ⟨hfirst, rfl⟩, result]
    · obtain rfl : first = 0 := by omega
      rw [if_neg (by omega), result]
  · rw [Collective.carriedOut, if_neg (by omega), chunkReduced, if_neg (by omega), tail e (by omega)]

/-- A reduction of elements of which the threads work on one chunk after another. -/
structure ReducesChunks (A : (c.onShared (.int 0)).Area) (G : Team)
    (op : c.lambda.Tuple → c.lambda.Tuple → c.lambda.Tuple) (B : Nat → Scope) (n m cnt : Nat) : Prop where
  manned : A.Manned G op B n
  waved : Waved G m
  place : A.place = .shared 0
  has : ∀ r e, A.has r e ↔ r = 0 ∧ e < cnt
  fits : cnt + G.size < 2 ^ 63
  inWaves : m ≤ G.ctx.loopLimit
  acrossWaves : crossSteps m G.size ≤ G.ctx.loopLimit

namespace ReducesChunks

theorem mono {B' : Nat → Scope} {n' : Nat} (h : ReducesChunks A G op B n m cnt) (hA : A.Manned G op B' n') :
    ReducesChunks A G op B' n' m cnt where
  manned := hA
  waved := h.waved
  place := h.place
  has := h.has
  fits := h.fits
  inWaves := h.inWaves
  acrossWaves := h.acrossWaves

variable (h : ReducesChunks A G op B n m cnt)
include h

/-- Whether a thread carries the result so far. -/
theorem carries_isBool (hfirst : ∀ t < G.size, base.eval (B t) = .ok (.i64 (Int64.ofNat first))) (hlt : first < cnt)
    {t : Nat} (ht : t < G.size) : IsBool (B t) ((base.gt (.int 0)).both (c.launch.ltid.equals (.int 0)))
      (decide (0 < first) && decide (t = 0)) := by
  have hfits := h.fits
  have hpositive := IsBool.gt ⟨_, hfirst t ht, Squad.toInt_ofNat (by omega)⟩ (.int 0)
  have hzero := IsBool.equals ⟨_, h.manned.localId t ht, Squad.toInt_ofNat (by omega)⟩ (.int 0)
  simpa using hpositive.both fun _ => hzero

/-- The first element of a chunk takes in the result so far. -/
theorem does_carryIn (own : Nat → Memory) (m₀ : Store) (f : c.Contents)
    (hfirst : ∀ t < G.size, base.eval (B t) = .ok (.i64 (Int64.ofNat first))) (hlt : first < cnt) :
    G.Does A.covers (G.Knows B own) (A.Filled m₀ f)
      (.when ((base.gt (.int 0)).both (c.launch.ltid.equals (.int 0)))
        (((c.onShared (.int 0)).combine { element := base } { element := .int 0 } { element := base } none false).run
          n).1)
      (G.Knows B own) (A.Filled m₀ (carriedIn op first f)) := by
  have takes : ∀ {t}, (decide (0 < first) && decide (t = 0)) = true → 0 < first ∧ t = 0 := fun hp => by simpa using hp
  have hhas : A.has 0 first := (h.has 0 first).mpr ⟨rfl, hlt⟩
  refine h.manned.does_combine (fun t => decide (0 < first) && decide (t = 0)) (fun _ => first) (fun _ => 0)
    (fun _ => first)
    (fun _ => false) (fun t ht => h.carries_isBool hfirst hlt ht) (fun t ht _ => ⟨hfirst t ht, hhas⟩)
    (fun t _ _ => ⟨eval_int 0, (h.has 0 0).mpr ⟨rfl, by omega⟩⟩) (fun t ht _ => ⟨hfirst t ht, hhas⟩) (fun _ _ _ => rfl)
    (fun t _ t' _ hp hp' _ => (takes hp).2.trans (takes hp').2.symm)
    (fun t _ t' _ hp hp' hne => absurd ((takes hp').2.trans (takes hp).2.symm) hne)
    (fun t _ t' _ hp hp' hne => absurd ((takes hp').2.trans (takes hp).2.symm) hne) (fun t _ hp l hl => ?_)
    fun r e hin hother l _ => if_neg ?_
  · rw [h.place] at hl
    obtain rfl : l = 0 := Nat.lt_one_iff.mp hl
    rw [if_neg Bool.false_ne_true]
    exact if_pos ⟨(takes hp).1, rfl⟩
  · rintro ⟨hpos, rfl⟩
    exact hother 0 G.pos (by simpa using hpos) (Prod.ext ((h.has r e).mp hin).1.symm rfl)

/-- A chunk is reduced. -/
theorem does_chunk (own : Nat → Memory) (m₀ : Store) (f : c.Contents) {size : Exp} (hn : n ≤ k)
    (hfirst : ∀ t < G.size, base.eval (B t) = .ok (.i64 (Int64.ofNat first)))
    (hsize : ∀ t < G.size, size.eval (B t) = .ok (.i64 (Int64.ofNat (min G.size (cnt - first))))) (hlt : first < cnt) :
    G.Does A.covers (G.Knows B own) (A.Filled m₀ (carriedIn op first f)) (((c.onShared base).reduce size).run k).1
      (G.Knows B own)
      (A.Filled m₀ (chunkReduced op first (min G.size (cnt - first)) (m + crossSteps m G.size) f)) := by
  obtain ⟨width, hwidth⟩ : ∃ width, width = min G.size (cnt - first) := ⟨_, rfl⟩
  have hwindow : ∀ e < width, A.has 0 (first + e) := fun e he => (h.has 0 _).mpr ⟨rfl, by omega⟩
  rw [← hwidth]
  refine Area.does_of_window base h.place hwindow
    (reduced op width (fun _ e l => carriedIn op first f 0 (first + e) l) (m + crossSteps m G.size))
    (fun r e he => ((h.has r e).mp he).1) (fun m' => ?_) (fun e he => ?_) fun i hi hout => if_neg fun hin => ?_
  · refine (reduce_does (c := c.onShared base) (n := k) size).2 _ G op B own m' _ h.waved (by omega)
      (fun e he => ⟨rfl, he⟩)
      ((h.manned.later hn).window fun t ht => ?_) (fun t ht => hwidth ▸ hsize t ht) h.inWaves h.acrossWaves
    rw [Int64.zero_add]
    exact hfirst t ht
  · rw [chunkReduced, if_pos (by omega), Nat.add_sub_cancel_left]
    rfl
  · exact hout (i - first) (by omega) (by omega)

/-- The result of a chunk is copied back. -/
theorem does_carryOut (own : Nat → Memory) (m₀ : Store) (f : c.Contents) (width steps : Nat)
    (hfirst : ∀ t < G.size, base.eval (B t) = .ok (.i64 (Int64.ofNat first))) (hlt : first < cnt) :
    G.Does A.covers (G.Knows B own) (A.Filled m₀ (chunkReduced op first width steps f))
      (.when ((base.gt (.int 0)).both (c.launch.ltid.equals (.int 0)))
        (((c.onShared (.int 0)).copy { element := .int 0 } { element := base }).run n).1)
      (G.Knows B own) (A.Filled m₀ (carriedOut op first width steps f)) := by
  have takes : ∀ {t}, (decide (0 < first) && decide (t = 0)) = true → 0 < first ∧ t = 0 := fun hp => by simpa using hp
  refine h.manned.does_copy (fun t => decide (0 < first) && decide (t = 0)) (fun _ => 0) (fun _ => first)
    (fun t ht => h.carries_isBool hfirst hlt ht) (fun t _ _ => ⟨eval_int 0, (h.has 0 0).mpr ⟨rfl, by omega⟩⟩)
    (fun t ht _ => ⟨hfirst t ht, (h.has 0 first).mpr ⟨rfl, hlt⟩⟩)
    (fun t _ t' _ hp hp' _ => (takes hp).2.trans (takes hp').2.symm)
    (fun t _ t' _ hp hp' hne => absurd ((takes hp').2.trans (takes hp).2.symm) hne) (fun t _ hp l hl => ?_)
    fun r e hin hother l _ => if_neg ?_
  · rw [h.place] at hl
    obtain rfl : l = 0 := Nat.lt_one_iff.mp hl
    exact if_pos ⟨(takes hp).1, rfl⟩
  · rintro ⟨hpos, rfl⟩
    exact hother 0 G.pos (by simpa using hpos) (Prod.ext ((h.has r 0).mp hin).1.symm rfl)

end ReducesChunks

/-- The memory when the first `done` elements have been reduced. Without any, it is what it was. -/
def HoldsReduced (A : (c.onShared (.int 0)).Area) (op : c.lambda.Tuple → c.lambda.Tuple → c.lambda.Tuple)
    (a : Nat → c.lambda.Tuple) (m₀ : Store) (done : Nat) (m : Store) : Prop :=
  (done = 0 → m = m₀) ∧ ∃ f, A.Filled m₀ f m ∧ ReducedUpTo op a done f

/-- The reduction of all chunks. It touches no other elements than the first `cnt`. -/
theorem reduceChunks_does (hop : Std.Associative op) (w : Exp) :
    Fresh.At n (reduceChunks c.launch c.lambda c.views w) fun _ code =>
    ∀ (A : (c.onShared (.int 0)).Area) (G : Team) (B : Nat → Scope) (own : Nat → Memory) (m₀ : Store) (a : Nat → c.lambda.Tuple)
      (m cnt : Nat), ReducesChunks A G op B n m cnt → (∀ t < G.size, w.eval (B t) = .ok (.i64 (Int64.ofNat cnt))) →
      (cnt + G.size - 1) / G.size ≤ G.ctx.loopLimit →
        G.Does A.covers (G.Knows B own) (HoldsReduced A op a m₀ 0) code (G.Knows B own)
          (HoldsReduced A op a m₀ cnt) := by
  refine (coverChunks_does (c := c.onShared (.int 0)) w).bind ?_
  rintro _ ⟨first, size, nest⟩ - ⟨rfl, hnest⟩
  refine Fresh.At.bind (P := fun _ code => code = (Fresh.run _ (n + 4)).1) ⟨(combine_obeys _ _ _ _ false).1, rfl⟩ ?_
  rintro n₁ _ hn₁ rfl
  refine Fresh.At.bind (P := fun _ code => code = (Fresh.run _ n₁).1) ⟨(@reduce_does _ _ 0 0 _).1, rfl⟩ ?_
  rintro n₂ _ hn₂ rfl
  refine Fresh.At.bind (P := fun _ code => code = (Fresh.run _ n₂).1) ⟨(copy_obeys _ _).1, rfl⟩ ?_
  rintro _ _ - rfl
  refine .pure fun A G B own m₀ a m cnt h hw hlimit => ?_
  have hpos := G.pos
  have hall := hnest (.block [
    .comment "possibly incorporate carry" (.when ((first.gt (.int 0)).both (c.launch.ltid.equals (.int 0)))
      (((c.onShared (.int 0)).combine { element := first } { element := .int 0 } { element := first } none false).run
        (n + 4)).1),
    .barrier .shared,
    (((c.onShared first).reduce size).run n₁).1,
    .barrier .shared,
    .when ((first.gt (.int 0)).both (c.launch.ltid.equals (.int 0)))
      (((c.onShared (.int 0)).copy { element := .int 0 } { element := first }).run n₂).1,
    .barrier .shared]) A G op B own A.covers (fun k => HoldsReduced A op a m₀ (min (k * G.size) cnt))
      cnt h.manned hw h.fits
    hlimit fun k σ hk hA hle hfirst hsize => ?_
  · rw [Nat.zero_mul, Nat.zero_min, Nat.min_eq_right (le_chunks_mul hpos)] at hall
    exact hall
  have hσ : ReducesChunks A G op σ (n + 4) m cnt := h.mono hA
  have hsteps := le_pow_crossSteps m G.size
  refine Does.of_forall fun m' hholds => ?_
  obtain ⟨-, f, hm', hf⟩ := hholds
  rw [Nat.min_eq_left (Nat.le_of_lt hk)] at hf
  -- One turn: the first element takes in the carry, the chunk is reduced, and the result is kept for the next turn.
  have carryIn := hσ.does_carryIn own m₀ f hfirst hk
  have reduction := hσ.does_chunk own m₀ f hn₁ hfirst hsize hk
  have carryOut := (hσ.mono (hA.later (Nat.le_trans hn₁ hn₂))).does_carryOut own m₀ f (min G.size (cnt - k * G.size))
    (m + crossSteps m G.size) hfirst hk
  have hdone : min ((k + 1) * G.size) cnt = k * G.size + min G.size (cnt - k * G.size) := by
    rw [Nat.succ_mul]
    omega
  refine Does.imp (does_block.mpr
    (.cons (does_comment.mpr carryIn) (.cons does_barrier (.cons reduction (.cons does_barrier
    (.cons carryOut (Does.single does_barrier))))))) (fun _ _ _ => id) ?_ (fun _ _ _ => id) fun m'' hm'' =>
    ⟨fun hzero => ?_, _, hm'', ?_⟩
  · rintro _ rfl
    exact hm'
  · rw [hdone] at hzero
    omega
  · rw [hdone]
    exact hf.carriedOut hop (by omega) (by omega)

/-! ### Whole groups -/

variable {ctx : GroupContext} {s : GroupState}

/-- A whole group reduces any number of elements that lie in shared memory to their combination from left to
    right, in waves of any power of two and with any order of the threads. Without elements it changes
    nothing. The distances inside a chunk double, which bounds the group. -/
theorem reduceChunks_folds (schedule : Schedule) {w : Exp} {width : Int64} (hstarts : c.Starts ctx s n op)
    (hop : Std.Associative op) (hwave : ctx.wave = max width 1) (hwidth : width = 0 ∨ ∃ m : Nat, width.toInt = 2 ^ m)
    (hw : s.Knows ctx n w fun _ => Int64.ofNat cnt) (hsize : ctx.groupSize.toInt ≤ 2 ^ 62)
    (hfits : Fits (cnt + ctx.groupSize.toInt)) (hrounds : 62 ≤ ctx.loopLimit)
    (hchunks : (cnt + ctx.groupSize.toInt - 1) / ctx.groupSize.toInt ≤ ctx.loopLimit)
    (ha : ∀ e < cnt, (Site.shared 0).Shows c.views s.store 0 e 0 (a e).1) :
    ∃ s', Run.exec ctx ((reduceChunks c.launch c.lambda c.views w).run n).1
      (schedule.order ctx.groupSize.toInt.toNat) s =
        .ok () s' ∧
      (0 < cnt → (Site.shared 0).Shows c.views s'.store 0 0 0 (foldSpan op a 0 (cnt - 1)).1) ∧
      (cnt = 0 → s'.store = s.store) ∧
      (∀ space array, s'.store.layout? space array = s.store.layout? space array) ∧
      (∀ p, (∀ e < cnt, ¬tupleSlots c.views e p) → s'.store.bits? p = s.store.bits? p) ∧
      ∀ t < ctx.groupSize.toInt.toNat, (s'.thread t).arrays = (s.thread t).arrays := by
  let G := hstarts.team schedule
  have hsize' : ctx.groupSize.toInt = G.size := hstarts.size_eq schedule
  have hfits' : cnt + G.size < 2 ^ 63 := by
    unfold Fits at hfits
    omega
  have hcnt : cnt < 2 ^ 63 := by omega
  obtain ⟨m, hG⟩ : ∃ m, Waved G m := waved_of_width hwave hwidth (by omega)
  have hreduces : ReducesChunks (hstarts.scalars cnt hcnt) G op (knowledge s ctx n) n m cnt :=
    ⟨hstarts.manned_scalars schedule (Nat.le_trans (by decide) hrounds), hG, rfl, fun _ _ => Iff.rfl, hfits',
      hG.width.trans hrounds, hG.crossSteps_le.trans hrounds⟩
  have hdoes := (reduceChunks_does (n := n) hop w).2 _ G (knowledge s ctx n) (fun t => (s.thread t).arrays)
    s.store a m cnt
    hreduces (fun t ht => eval_knowledge hw ht) (chunks_le hsize' G.pos hchunks)
  have hstart : HoldsReduced (hstarts.scalars cnt hcnt) op a s.store 0 s.store :=
    ⟨fun _ => rfl, _, hstarts.filled_scalars ha, nofun, fun _ _ => rfl⟩
  obtain ⟨⟨s', hrun, ⟨hempty, f, hm, hf⟩, hthreads⟩, -⟩ := hstarts.run schedule hdoes hstart
  refine ⟨s', hrun, fun hpos => ?_, hempty, hm.layout, fun p hp => hm.frame p fun hcovers => ?_,
    fun t ht => (hthreads t ht).2⟩
  · have := hm.shows (r := 0) (e := 0) (l := 0) ⟨rfl, hpos⟩ Nat.one_pos
    rwa [hf.first hpos] at this
  · obtain ⟨e, he, hslot⟩ := hstarts.covers_scalars hcovers
    exact hp e he hslot

/-- Two threads reduce seven scalars. They take their turns in reverse. -/
theorem cells_reduceChunks_folds : ∃ s',
    Run.exec uncheckedContext ((reduceChunks pairRows.launch pairRows.lambda (pairScalars (.int 0)).views (.int 7)).run
      0).1
      [1, 0] (cellState 7 id) = .ok () s' ∧
      (Site.shared 0).Shows (pairScalars (.int 0)).views s'.store 0 0 0
        (foldSpan sum (fun e => single (Int64.ofNat e)) 0 (7 - 1)).1 := by
  have hcount : (cellState 7 id).Knows uncheckedContext 0 (.int 7) fun _ => Int64.ofNat 7 :=
    cells_knows (counted_knows (by decide) (by decide +kernel))
  have hspot : ∀ e < 7, ((Site.shared 0).spot 0 e 0).toInt.toNat = e ∧ 0 ≤ ((Site.shared 0).spot 0 e 0).toInt := by
    decide +kernel
  obtain ⟨s', hrun, hshows, -⟩ :=
    reduceChunks_folds (c := pairScalars (.int 0)) .reverse cells_starts sum_associative rfl
    (Or.inl rfl) hcount (by decide) (by unfold Fits; decide) (by decide) (by decide)
      (a := fun e => single (Int64.ofNat e))
    fun e he => ⟨(hspot e he).2, by
      rw [(hspot e he).1]
      exact cells_holds 7 id he⟩
  exact ⟨s', hrun, hshows (by decide)⟩

end SegKernel.Collective
