import Mathlib.Algebra.Group.Nat.Defs
import Mathlib.Data.Nat.Init
import Mathlib.Tactic.Common

/-! Combinations of elements that follow each other, and how the steps of a scan and of a reduction build
    them up. An associative operator combines two spans of which one starts after the other. -/

namespace SegKernel
variable {α : Type} {op : α → α → α} {a b : Nat → α}

/-- The elements from `first` to `last`, combined from left to right. -/
def foldSpan (op : α → α → α) (a : Nat → α) (first last : Nat) : α :=
  (List.range' (first + 1) (last - first)).foldl (fun x j => op x (a j)) (a first)

theorem foldSpan_self (i : Nat) : foldSpan op a i i = a i := by
  simp [foldSpan]

theorem foldSpan_succ {first last : Nat} (h : first ≤ last) :
    foldSpan op a first (last + 1) = op (foldSpan op a first last) (a (last + 1)) := by
  unfold foldSpan
  rw [show last + 1 - first = last - first + 1 by omega, List.range'_concat, List.foldl_append,
    show first + 1 + 1 * (last - first) = last + 1 by omega]
  rfl

theorem foldSpan_congr {first last : Nat} (hle : first ≤ last) (h : ∀ i, first ≤ i → i ≤ last → a i = b i) :
    foldSpan op a first last = foldSpan op b first last := by
  induction last, hle using Nat.le_induction with
  | base => rw [foldSpan_self, foldSpan_self, h first (Nat.le_refl _) (Nat.le_refl _)]
  | succ last hle ih =>
    rw [foldSpan_succ hle, foldSpan_succ hle, ih fun i hi hi' => h i hi (by omega),
      h (last + 1) (by omega) (Nat.le_refl _)]

/-- A span and the one after it make one span. -/
theorem foldSpan_append (hop : Std.Associative op) {first mid last : Nat} (h : first ≤ mid) (h' : mid < last) :
    op (foldSpan op a first mid) (foldSpan op a (mid + 1) last) = foldSpan op a first last := by
  induction last, h' using Nat.le_induction with
  | base => rw [foldSpan_self, foldSpan_succ h]
  | succ last hle ih => rw [foldSpan_succ (by omega), foldSpan_succ (by omega), ← ih, hop.assoc]

/-- A span of the elements from some position on. -/
theorem foldSpan_shift {k first last : Nat} (hle : first ≤ last) :
    foldSpan op (fun i => a (k + i)) first last = foldSpan op a (k + first) (k + last) := by
  induction last, hle using Nat.le_induction with
  | base => rw [foldSpan_self, foldSpan_self]
  | succ last hle ih => rw [foldSpan_succ hle, ih, ← Nat.add_assoc, foldSpan_succ (by omega)]

/-- A span whose first element has taken in what lies before it. -/
theorem foldSpan_of_carried {first mid last : Nat} (h : first ≤ mid) (h' : mid ≤ last)
    (hmid : b mid = foldSpan op a first mid) (hrest : ∀ i, mid < i → b i = a i) :
    foldSpan op b mid last = foldSpan op a first last := by
  induction last, h' using Nat.le_induction with
  | base => rw [foldSpan_self, hmid]
  | succ last hle ih => rw [foldSpan_succ hle, foldSpan_succ (by omega), ih, hrest _ (by omega)]

/-! ### Segments -/

/-- Each position has a start of its segment, which positions of one segment have in common. -/
structure Segmentation (start : Nat → Nat) : Prop where
  le : ∀ i, start i ≤ i
  same : ∀ {i j}, start j ≤ i → i ≤ j → start i = start j

namespace Segmentation
variable {start : Nat → Nat}

/-- All positions are in one segment. -/
theorem whole : Segmentation fun _ => 0 where
  le _ := Nat.zero_le _
  same _ _ := rfl

theorem ofSize (m : Nat) : Segmentation fun i => i / m * m where
  le i := Nat.div_mul_le_self i m
  same {i j} h hij := by
    rcases Nat.eq_zero_or_pos m with rfl | hm
    · simp
    · have hle : j / m ≤ i / m := (Nat.le_div_iff_mul_le hm).mpr h
      have hge : i / m ≤ j / m := Nat.div_le_div_right hij
      rw [Nat.le_antisymm hge hle]

/-- A block belongs to the segment of its last position, which starts in an earlier block or in this
    one. -/
theorem ofBlocks (h : Segmentation start) : Segmentation fun j => start (32 * j + 31) / 32 where
  le j := by
    have := h.le (32 * j + 31)
    omega
  same {i j} hi hij := by rw [h.same (i := 32 * i + 31) (j := 32 * j + 31) (by omega) (by omega)]

/-- The segments of the elements from some position on. -/
theorem shift (h : Segmentation start) (k : Nat) : Segmentation fun j => start (k + j) - k where
  le j := by
    have := h.le (k + j)
    omega
  same {i j} hi hij := by rw [h.same (i := k + i) (j := k + j) (by omega) (by omega)]

/-- An element takes in the last one before it just where no segment starts. -/
theorem foldSpan_start (h : Segmentation start) {i : Nat} (hi : 0 < i) : foldSpan op a (start i) i =
    if start i = i then a i else op (foldSpan op a (start (i - 1)) (i - 1)) (a i) := by
  have hle := h.le i
  by_cases hstarts : start i = i
  · rw [if_pos hstarts, hstarts, foldSpan_self]
  · rw [if_neg hstarts, h.same (i := i - 1) (j := i) (by omega) (by omega)]
    have hsucc : foldSpan op a (start i) (i - 1 + 1) = _ := foldSpan_succ (show start i ≤ i - 1 by omega)
    rwa [Nat.sub_add_cancel hi] at hsucc

end Segmentation

/-! ### Scans in blocks of 32 -/

/-- A step of a scan in blocks: an active element takes in the one that lies a distance before it in its
    block, unless a segment starts in between. -/
def scanStep (op : α → α → α) (crosses : Nat → Nat → Bool) (active : Nat → Bool) (distance : Nat) (a : Nat → α)
    (t : Nat) :
    α :=
  if active t = true ∧ distance ≤ t % 32 then
    if crosses (t - distance) t then a t else op (a (t - distance)) (a t)
  else a t

/-- The first steps of a scan in blocks, at distances that double. -/
def scanSteps (op : α → α → α) (crosses : Nat → Nat → Bool) (active : Nat → Bool) (a : Nat → α) : Nat → Nat → α
  | 0 => a
  | k + 1 => scanStep op crosses active (2 ^ k) (scanSteps op crosses active a k)

/-- All steps of a scan in blocks. -/
def scanBlocksOf (op : α → α → α) (crosses : Nat → Nat → Bool) (active : Nat → Bool) (a : Nat → α) : Nat → α :=
  scanSteps op crosses active a 5

/-- The first positions of blocks take in nothing. -/
theorem scanSteps_of_not_takes {crosses : Nat → Nat → Bool} {active : Nat → Bool} {k t : Nat}
    (h : ¬(active t = true ∧ 2 ^ k ≤ t % 32)) :
    scanSteps op crosses active a (k + 1) t = scanSteps op crosses active a k t := by
  rw [scanSteps, scanStep, if_neg h]

/-- Positions that take no part keep what they have. -/
theorem scanSteps_of_inactive {crosses : Nat → Nat → Bool} {active : Nat → Bool} {t : Nat} (h : active t = false)
    (k : Nat) :
    scanSteps op crosses active a k t = a t := by
  induction k with
  | zero => rfl
  | succ k ih => rw [scanSteps_of_not_takes fun htakes => Bool.false_ne_true (h.symm.trans htakes.1), ih]

section Scan
variable {start : Nat → Nat} {crosses crosses' : Nat → Nat → Bool} {active active' : Nat → Bool} {good : Nat}

/-- The test for starts of segments is right for positions below a bound. -/
def Finds (crosses : Nat → Nat → Bool) (start : Nat → Nat) (good : Nat) : Prop :=
  ∀ i j, i < j → j < good → crosses i j = decide (i < start j)

/-- After each step an element holds the span that reaches back to its segment, its block, or as far as
    the distances so far. -/
theorem scanSteps_eq (hop : Std.Associative op) (hstart : Segmentation start) (hfinds : Finds crosses start good)
    (hactive : ∀ t < good, active t = true) (k : Nat) : ∀ t < good,
      scanSteps op crosses active a k t = foldSpan op a (max (start t) (max (t / 32 * 32) (t + 1 - 2 ^ k))) t := by
  -- A step joins the span of a thread to the one that ends where it begins.
  induction k with
  | zero =>
    intro t _
    have := hstart.le t
    rw [show max (start t) (max (t / 32 * 32) (t + 1 - 2 ^ 0)) = t by omega, foldSpan_self]
    rfl
  | succ k ih =>
    intro t ht
    have hpos : 0 < 2 ^ k := Nat.pow_pos (by omega)
    have hdouble : 2 ^ (k + 1) = 2 * 2 ^ k := by rw [Nat.pow_succ, Nat.mul_comm]
    by_cases htakes : 2 ^ k ≤ t % 32
    · rw [scanSteps, scanStep, if_pos ⟨hactive t ht, htakes⟩, hfinds _ _ (by omega) ht, ih t ht, ih _ (by omega)]
      have hblock : (t - 2 ^ k) / 32 * 32 = t / 32 * 32 := by omega
      by_cases hcross : t - 2 ^ k < start t
      · rw [if_pos (by simpa using hcross)]
        congr 1
        omega
      · rw [if_neg (by simpa using hcross), hblock, hstart.same (i := t - 2 ^ k) (j := t) (by omega) (by omega),
          show max (start t) (max (t / 32 * 32) (t + 1 - 2 ^ k)) = t - 2 ^ k + 1 by omega,
          foldSpan_append hop (by omega) (by omega)]
        congr 1
        omega
    · rw [scanSteps_of_not_takes fun h => htakes h.2, ih t ht]
      congr 1
      omega

theorem scanBlocksOf_eq (hop : Std.Associative op) (hstart : Segmentation start) (hfinds : Finds crosses start good)
    (hactive : ∀ t < good, active t = true) {t : Nat} (ht : t < good) :
    scanBlocksOf op crosses active a t = foldSpan op a (max (start t) (t / 32 * 32)) t := by
  rw [scanBlocksOf, scanSteps_eq hop hstart hfinds hactive 5 t ht]
  congr 1
  omega

/-- The totals of blocks, combined from the start of a segment on, are the span up to the last block. -/
theorem foldSpan_blocks (hop : Std.Associative op) (hstart : Segmentation start) {j : Nat}
    (hb : ∀ i ≤ j, b i = foldSpan op a (max (start (32 * i + 31)) (32 * i)) (32 * i + 31)) :
    foldSpan op b (start (32 * j + 31) / 32) j = foldSpan op a (start (32 * j + 31)) (32 * j + 31) := by
  have hle := hstart.le (32 * j + 31)
  have upTo : ∀ i, start (32 * j + 31) / 32 ≤ i → i ≤ j →
      foldSpan op b (start (32 * j + 31) / 32) i = foldSpan op a (start (32 * j + 31)) (32 * i + 31) := by
    intro i hi
    have hsame : ∀ i, start (32 * j + 31) / 32 ≤ i → i ≤ j → start (32 * i + 31) = start (32 * j + 31) :=
      fun i hi hij =>
      hstart.same (by omega) (by omega)
    induction i, hi using Nat.le_induction with
    | base =>
      intro hj
      rw [foldSpan_self, hb _ hj, hsame _ (Nat.le_refl _) hj]
      congr 1
      omega
    | succ i hi ih =>
      intro hj
      rw [foldSpan_succ hi, ih (by omega), hb _ hj, hsame _ (by omega) hj,
        show max (start (32 * j + 31)) (32 * (i + 1)) = 32 * i + 31 + 1 by
          omega, foldSpan_append hop (by omega) (by omega)]
  exact upTo j (by omega) (Nat.le_refl j)

/-- The elements after the first block take in the totals of the blocks before their own. -/
def carryIn (op : α → α → α) (crosses : Nat → Nat → Bool) (scanned totals : Nat → α) (t : Nat) : α :=
  if t < 32 then scanned t
  else if crosses (t / 32 * 32 - 1) t then scanned t
  else op (totals (t / 32 - 1)) (scanned t)

/-- Scanned blocks that take in the scanned totals are the scan of the whole. -/
theorem carryIn_eq (good : Nat) (hop : Std.Associative op) (hstart : Segmentation start)
    (hfinds : Finds crosses start good) (hactive : ∀ t < good, active t = true)
    (hfinds' : Finds crosses' (fun j => start (32 * j + 31) / 32) (good / 32))
    (hactive' : ∀ j < good / 32, active' j = true) (hgood : good ≤ 1024)
    (hb : ∀ j < good / 32, b j = scanBlocksOf op crosses active a (32 * j + 31)) {t : Nat} (ht : t < good) :
    carryIn op crosses (scanBlocksOf op crosses active a) (scanBlocksOf op crosses' active' b) t =
      foldSpan op a (start t) t := by
  have hle := hstart.le t
  rw [carryIn, scanBlocksOf_eq hop hstart hfinds hactive ht]
  by_cases hfirst : t < 32
  · rw [if_pos hfirst]
    congr 1
    omega
  · rw [if_neg hfirst, hfinds _ _ (by omega) ht]
    by_cases hcross : t / 32 * 32 - 1 < start t
    · rw [if_pos (by simpa using hcross)]
      congr 1
      omega
    · -- The segment starts in an earlier block; its totals reach up to the end of the block before.
      have hlast : 32 * (t / 32 - 1) + 31 = t / 32 * 32 - 1 := by omega
      have hsame : start (t / 32 * 32 - 1) = start t := hstart.same (by omega) (by omega)
      have totals : scanBlocksOf op crosses' active' b (t / 32 - 1) = foldSpan op a (start t) (t / 32 * 32 - 1) := by
        rw [scanBlocksOf_eq hop hstart.ofBlocks hfinds' hactive' (by omega),
          show (t / 32 - 1) / 32 * 32 = 0 by
            omega, Nat.max_zero, foldSpan_blocks hop hstart fun i hi => ?_, hlast, hsame]
        rw [hb i (by omega), scanBlocksOf_eq hop hstart hfinds hactive (by omega)]
        congr 2
        omega
      rw [if_neg (by simpa using hcross), totals,
        show max (start t) (t / 32 * 32) = t / 32 * 32 - 1 + 1 by omega, foldSpan_append hop (by omega) (by omega)]

end Scan

/-! ### Reductions -/

/-- A step of a reduction: the first of each pair at a distance takes in the second one, if there is one. -/
def reduceStep (op : α → α → α) (w distance : Nat) (a : Nat → α) (t : Nat) : α :=
  if 2 * distance ∣ t ∧ t + distance < w then op (a t) (a (t + distance)) else a t

/-- The first steps of a reduction, at distances that double. -/
def reduceSteps (op : α → α → α) (w : Nat) (a : Nat → α) : Nat → Nat → α
  | 0 => a
  | k + 1 => reduceStep op w (2 ^ k) (reduceSteps op w a k)

/-- After each step the first of a pair holds what lies before the next pair, as far as there is
    something. -/
theorem reduceSteps_eq (hop : Std.Associative op) {w : Nat} (k : Nat) : ∀ t < w, 2 ^ k ∣ t →
    reduceSteps op w a k t = foldSpan op a t (min (t + 2 ^ k) w - 1) := by
  induction k with
  | zero =>
    intro t ht _
    rw [show min (t + 2 ^ 0) w - 1 = t by omega, foldSpan_self]
    rfl
  | succ k ih =>
    intro t ht hdvd
    have hdouble : 2 ^ (k + 1) = 2 * 2 ^ k := by rw [Nat.pow_succ, Nat.mul_comm]
    have hpos : 0 < 2 ^ k := Nat.pow_pos (by omega)
    have hhalf : 2 ^ k ∣ t := Nat.dvd_trans ⟨2, by rw [hdouble, Nat.mul_comm]⟩ hdvd
    rw [reduceSteps, reduceStep]
    by_cases hpartner : t + 2 ^ k < w
    · rw [if_pos ⟨hdouble ▸ hdvd, hpartner⟩, ih t ht hhalf, ih _ hpartner (Nat.dvd_add hhalf (Nat.dvd_refl _)),
        show min (t + 2 ^ k) w - 1 = t + 2 ^ k - 1 by omega, show t + 2 ^ k + 2 ^ k = t + 2 ^ (k + 1) by omega]
      have hmid : t + 2 ^ k - 1 < min (t + 2 ^ (k + 1)) w - 1 := by omega
      have happend := foldSpan_append (a := a) hop (show t ≤ t + 2 ^ k - 1 by omega) hmid
      rwa [show t + 2 ^ k - 1 + 1 = t + 2 ^ k by omega] at happend
    · rw [if_neg fun h => hpartner h.2, ih t ht hhalf]
      congr 1
      omega

/-- Enough steps reduce all elements into the first one. -/
theorem reduceSteps_zero (hop : Std.Associative op) {w k : Nat} (hw : 0 < w) (hk : w ≤ 2 ^ k) :
    reduceSteps op w a k 0 = foldSpan op a 0 (w - 1) := by
  rw [reduceSteps_eq hop k 0 hw (Nat.dvd_zero _)]
  congr 1
  omega

end SegKernel
