import SegKernel.Proofs.Collectives.RowScans

/-! The scan of the rows of a group agrees lane by lane with the scan of scalars, since both combine the
    elements of each segment in their order. The rows of other groups lie apart. -/

namespace SegKernel.Collective
open Exp Team

variable {c : Collective} {A : c.Area} {op : c.lambda.Tuple → c.lambda.Tuple → c.lambda.Tuple} {n cnt : Nat}
  {f : c.Contents} {test : Option SegmentTest} {ctx : GroupContext} {s : GroupState} {start : Nat → Nat}
  {a : Nat → Nat → c.lambda.Tuple} {place : Site} {m : Store}

/-! ### Contents -/

/-- What can be reached is there. -/
theorem exists_tuple (htyped : c.Typed) {i : Nat} (h : ∀ view ∈ c.views, m.Reaches view i) :
    ∃ x : c.lambda.Tuple, m.HoldsAll c.views i x.1 := by
  have there : ∀ views : List View, (∀ view ∈ views, m.Reaches view i) → ∃ vs, m.HoldsAll views i vs := by
    intro views h
    induction views with
    | nil => exact ⟨[], .nil⟩
    | cons view views ih =>
      obtain ⟨vs, hvs⟩ := ih fun v hv => h v (List.mem_cons_of_mem view hv)
      have hview := h view List.mem_cons_self
      obtain ⟨bits, hbits⟩ := Option.isSome_iff_exists.mp hview.isSome_bits?
      exact ⟨_, .cons ⟨hview, bits, hbits, rfl⟩ hvs⟩
  obtain ⟨vs, hvs⟩ := there c.views h
  exact ⟨⟨vs, hvs.types.trans htyped.types.symm⟩, hvs⟩

/-- A memory is filled with what it holds, of which some may be known. -/
theorem exists_filled
    (hreaches : ∀ r e l, A.has r e → l < A.place.laneCount → ∀ view ∈ c.views, m.Reaches view (A.position r e l))
    (hhas : ∀ e < cnt, A.has 0 e) (ha : ∀ e < cnt, ∀ l < A.place.laneCount, A.place.Shows c.views m 0 e l (a e l).1) :
    ∃ f : c.Contents, A.Filled m f m ∧ ∀ e < cnt, ∀ l < A.place.laneCount, f 0 e l = a e l := by
  have hex : ∀ r e l, ∃ x : c.lambda.Tuple, A.has r e → l < A.place.laneCount →
    m.HoldsAll c.views (A.position r e l) x.1 := by
    intro r e l
    by_cases h : A.has r e ∧ l < A.place.laneCount
    · obtain ⟨x, hx⟩ := exists_tuple A.typed (hreaches r e l h.1 h.2)
      exact ⟨x, fun _ _ => hx⟩
    · exact ⟨zeros c.lambda, fun h₁ h₂ => absurd ⟨h₁, h₂⟩ h⟩
  choose f hf using hex
  refine ⟨f, ⟨fun _ _ => rfl, fun h hl => hf _ _ _ h hl, fun _ _ => rfl⟩, fun e he l hl => ?_⟩
  exact Subtype.ext ((hf 0 e l (hhas e he) hl).unique (ha e he l hl).2)

/-! ### Positions of rows -/

section Spots
variable {lane length first first' r : Int64} {e e' l l' : Nat}

/-- The lanes of a row lie in its region. -/
theorem row_bounds (hv : (Site.rows lane length first).Valid r (Int64.ofNat e))
    (hl : l < (Site.rows lane length first).laneCount) :
    0 ≤ r.toInt ∧ 0 ≤ (first.toInt + (Int64.ofNat e).toInt) * lane.toInt + (Int64.ofNat l).toInt ∧
      (first.toInt + (Int64.ofNat e).toInt) * lane.toInt + (Int64.ofNat l).toInt < length.toInt := by
  obtain ⟨hlane, hlt⟩ := Site.lane_ofNat hl
  obtain ⟨hr, -, hfirst, he, hend⟩ := hv (Int.lt_of_le_of_lt hlane hlt)
  have hnext := Int.add_mul (first.toInt + (Int64.ofNat e).toInt) 1 lane.toInt
  have hrow : 0 ≤ (first.toInt + (Int64.ofNat e).toInt) * lane.toInt := Int.mul_nonneg (by omega) (by omega)
  omega

theorem spot_rows (hv : (Site.rows lane length first).Valid r (Int64.ofNat e))
    (hl : l < (Site.rows lane length first).laneCount) :
    0 ≤ ((Site.rows lane length first).spot r e l).toInt ∧
      ((Site.rows lane length first).spot r e l).toInt < (r.toInt + 1) * length.toInt := by
  obtain ⟨hr, hrow, hlt⟩ := row_bounds hv hl
  have hregion : 0 ≤ r.toInt * length.toInt := Int.mul_nonneg hr (by omega)
  have hnext := Int.add_mul r.toInt 1 length.toInt
  rw [Site.spot, Site.toInt_index_rows hv (Site.lane_ofNat hl)]
  omega

/-- Rows of different groups lie apart. -/
theorem spot_rows_ne (hv : (Site.rows lane length first).Valid r (Int64.ofNat e))
    (hv' : (Site.rows lane length first').Valid 0 (Int64.ofNat e')) (hl : l < (Site.rows lane length first).laneCount)
    (hl' : l' < (Site.rows lane length first').laneCount)
    (hne : first.toInt + (Int64.ofNat e).toInt ≠ first'.toInt + (Int64.ofNat e').toInt) :
    ((Site.rows lane length first).spot r e l).toInt ≠ ((Site.rows lane length first').spot 0 e' l').toInt := by
  intro h
  rw [Site.spot, Site.spot, Site.toInt_index_rows hv (Site.lane_ofNat hl),
    Site.toInt_index_rows hv' (Site.lane_ofNat hl')] at h
  have hrest := (Site.split_inj (row_bounds hv hl).2 (row_bounds hv' hl').2 h).2
  exact hne (Site.split_inj (Site.lane_ofNat hl) (Site.lane_ofNat hl') hrest).1

end Spots

/-! ### Whole groups -/

section Rows
variable {lane length : Int64} {lanes regionLength : Exp}

theorem Starts.valid_row (h : c.Starts ctx s n op) (hlayout : c.layout.isRows = true)
    (hlies : c.layout.LiesAt c.launch 3 ctx s n (.rows lane length (ctx.group * ctx.groupSize))) {r : Int64} {e : Nat}
    (hr : r = 0 ∨ r = 1 ∨ r = 2) (he : e < ctx.groupSize.toInt.toNat) :
    (Site.rows lane length (ctx.group * ctx.groupSize)).Valid r (Int64.ofNat e) := by
  have bounds : 0 ≤ r.toInt ∧ r.toInt < (3 : Nat) := by
    obtain rfl | rfl | rfl := hr <;> decide
  exact h.valid hlies bounds.1 bounds.2 (fun hnot => absurd (hlayout.symm.trans hnot) (by decide)) he

/-- The rows of other groups in the first region are none of those of the group. -/
theorem Starts.other_rows (h : c.Starts ctx s n op) (hlayout : c.layout.isRows = true)
    (hlies : c.layout.LiesAt c.launch 3 ctx s n (.rows lane length (ctx.group * ctx.groupSize))) {group r : Int64}
    {e e' l l' : Nat}
    {p : Slot} (hne : group ≠ ctx.group) (hgroup : 0 ≤ group.toInt) (hlt : group.toInt < ctx.numGroups.toInt)
    (hr : r = 0 ∨ r = 1 ∨ r = 2) (he : e < ctx.groupSize.toInt.toNat) (he' : e' < ctx.groupSize.toInt.toNat)
    (hl : l < lane.toInt.toNat) (hl' : l' < lane.toInt.toNat)
    (hp : tupleSlots c.views ((Site.rows lane length (group * ctx.groupSize)).spot 0 e l).toInt.toNat p) :
    ¬tupleSlots c.views ((Site.rows lane length (ctx.group * ctx.groupSize)).spot r e' l').toInt.toNat p := by
  intro hp'
  have hv' := h.valid_row hlayout hlies hr he'
  have hsize := h.size_eq .forward
  unfold Layout.LiesAt at hlies
  split at hlies
  · rename_i hshared
    rw [hshared] at hlayout
    cases hlayout
  obtain ⟨_, _, hplace, -, -, -, hlength, hend, hgroup₀, hlt₀⟩ := hlies
  cases hplace
  have hpos : 0 < lane.toInt := by omega
  have hfits := (fits_toInt ctx.groupSize).2
  have hto : ∀ {e : Nat}, e < ctx.groupSize.toInt.toNat → (Int64.ofNat e).toInt = e :=
    fun he => Squad.toInt_ofNat (by omega)
  rw [hsize] at hlength
  have hv := fits_rows hlength hend hgroup hlt (fun hpos => toInt_groupBase hsize hlength hgroup hlt hpos) 0
    (Int64.ofNat e)
    (Int.le_refl 0) (by decide) (by rw [hto he]; omega) (by rw [hto he]; exact Int.ofNat_lt.mpr he)
  -- The two rows lie in parts of the region that belong to different groups.
  refine spot_rows_ne hv' hv hl' hl ?_ ?_
  · rw [toInt_groupBase hsize hlength hgroup hlt hpos, toInt_groupBase hsize hlength hgroup₀ hlt₀ hpos, hto he, hto he']
    intro heq
    have hsame := (Site.split_inj ⟨Int.natCast_nonneg _, Int.ofNat_lt.mpr he'⟩
      ⟨Int.natCast_nonneg _, Int.ofNat_lt.mpr he⟩ heq).1
    exact hne (Int64.toInt_inj.mp hsame.symm)
  · have := tupleSlots_unique hp hp'
    have := (spot_rows hv hl).1
    have := (spot_rows hv' hl').1
    omega

/-- The rows of a group in three regions. -/
def Starts.rows (h : c.Starts ctx s n op) (hlayout : c.layout.isRows = true)
    (hlies : c.layout.LiesAt c.launch 3 ctx s n (.rows lane length (ctx.group * ctx.groupSize))) : c.Area where
  place := .rows lane length (ctx.group * ctx.groupSize)
  has r e := (r = 0 ∨ r = 1 ∨ r = 2) ∧ e < ctx.groupSize.toInt.toNat
  valid h' := h.valid_row hlayout hlies h'.1 h'.2
  lt := by
    rintro r e ⟨-, he⟩
    have := (fits_toInt ctx.groupSize).2
    omega
  nonneg h' hl := (spot_rows (h.valid_row hlayout hlies h'.1 h'.2) hl).1
  typed := h.typed

/-- A whole group makes the scan of the rows of its threads. -/
theorem Starts.exec_scan_rows (schedule : Schedule) {w : Exp} (hstarts : c.Starts ctx s n op)
    (hlayout : c.layout.isRows = true)
    (hlies : c.layout.LiesAt c.launch 3 ctx s n (.rows lane length (ctx.group * ctx.groupSize)))
    (hsegments : s.Segments ctx n test start) (hw : s.Knows ctx n w fun _ => Int64.ofNat cnt)
    (hcnt : cnt ≤ ctx.groupSize.toInt) (hsize : ctx.groupSize.toInt ≤ scanBlockSize.toInt ^ 2)
    (hlimit : 5 ≤ ctx.loopLimit) (hlanes : lane.toInt.toNat ≤ ctx.loopLimit)
    (hf : (hstarts.rows hlayout hlies).Filled s.store f s.store) :
    ∃ s', Run.exec ctx ((c.scan test w).run n).1 (schedule.order ctx.groupSize.toInt.toNat) s = .ok () s' ∧
      (hstarts.rows hlayout hlies).Filled s.store (rowScan op (fun i j => decide (i < start j)) cnt f) s'.store := by
  let G := hstarts.team schedule
  have hsize' : ctx.groupSize.toInt = G.size := hstarts.size_eq schedule
  have hbound : G.size ≤ 1024 := by
    rw [hsize'] at hsize
    exact Int.ofNat_le.mp hsize
  let A := hstarts.rows hlayout hlies
  have hdoes := (scanRows_does (c := c) (n := n) test w).2 A G op (knowledge s ctx n) (fun t => (s.thread t).arrays)
    s.store f cnt
    (fun i j => decide (i < start j))
      ⟨hstarts.manned (A := A) schedule hlies hlanes, fun _ _ => Iff.rfl, by omega, hbound,
      fun t ht => eval_knowledge hw ht, fun t ht => hsegments.tells ht, hlimit⟩
  have hcode : ((c.scan test w).run n).1 = .comment "group scan" ((c.scanRows test w).run n).1 := by
    unfold scan
    split
    · rename_i hshared
      rw [hshared] at hlayout
      cases hlayout
    · rfl
  rw [hcode, Run.exec_comment]
  obtain ⟨⟨s', hrun, hm, -⟩, -⟩ := hstarts.run schedule hdoes hf
  exact ⟨s', hrun, hm⟩

end Rows

/-- A scan of scalars that a whole group makes in shared memory. -/
structure Column (lambda : Lambda) (op : lambda.Tuple → lambda.Tuple → lambda.Tuple) (start : Nat → Nat) (cnt : Nat)
    (a : Nat → lambda.Tuple) where
  launch : Launch
  views : List View
  base : Exp
  test : Option SegmentTest
  count : Exp
  ctx : GroupContext
  state : GroupState
  names : Nat
  first : Int64
  schedule : Schedule
  starts : Collective.Starts ⟨launch, lambda, views, .shared base⟩ ctx state names op
  knowsBase : state.Knows ctx names base fun _ => first
  segments : state.Segments ctx names test start
  knowsCount : state.Knows ctx names count fun _ => Int64.ofNat cnt
  fits : cnt ≤ ctx.groupSize.toInt
  size : ctx.groupSize.toInt ≤ scanBlockSize.toInt ^ 2
  limit : 5 ≤ ctx.loopLimit
  shows : ∀ e < cnt, (Site.shared first).Shows views state.store 0 e 0 (a e).1

/-- What the group makes of its memory. -/
def Column.run {lambda : Lambda} {op : lambda.Tuple → lambda.Tuple → lambda.Tuple} {a : Nat → lambda.Tuple}
    (column : Column lambda op start cnt a) : EStateM.Result Fault GroupState Unit :=
  Run.exec column.ctx ((Collective.scan ⟨column.launch, lambda, column.views, .shared column.base⟩
    column.test column.count).run
    column.names).1 (column.schedule.order column.ctx.groupSize.toInt.toNat) column.state

/-- The scan of a column leaves what lies in a segment before an element. -/
theorem Column.run_shows {lambda : Lambda} {op : lambda.Tuple → lambda.Tuple → lambda.Tuple} {a : Nat → lambda.Tuple}
    (column : Column lambda op start cnt a) (hop : Std.Associative op) : ∃ s, column.run = .ok () s ∧ ∀ e < cnt,
      (Site.shared column.first).Shows column.views s.store 0 e 0 (foldSpan op a (start e) e).1 := by
  obtain ⟨A, hplace, hhas, s', hrun, hm, -⟩ :=
    column.starts.exec_scan_shared column.schedule rfl column.knowsBase column.segments
    column.knowsCount column.fits column.size column.limit column.shows
  exact ⟨s', hrun, fun e he => shows_scanned hplace hhas hm hop column.segments.segmentation
    (Int.ofNat_le.mp (Int.le_trans column.fits column.size)) he⟩

/-- A whole group scans the rows of its threads, in any waves and with any order of the threads. In each lane
    the elements become what they become when a group scans this lane alone in shared memory. The rows of
    other groups do not change. -/
theorem scan_rows_agrees (schedule : Schedule) {w : Exp} {lane length : Int64} (hstarts : c.Starts ctx s n op)
    (hlayout : c.layout.isRows = true)
    (hlies : c.layout.LiesAt c.launch 3 ctx s n (.rows lane length (ctx.group * ctx.groupSize)))
    (hop : Std.Associative op) (hsegments : s.Segments ctx n test start) (hw : s.Knows ctx n w fun _ => Int64.ofNat cnt)
    (hcnt : cnt ≤ ctx.groupSize.toInt) (hsize : ctx.groupSize.toInt ≤ scanBlockSize.toInt ^ 2)
    (hlimit : 5 ≤ ctx.loopLimit) (hlanes : lane.toInt.toNat ≤ ctx.loopLimit)
    (hreaches : ∀ view ∈ c.views, ∀ i : Nat, i < 3 * length.toInt → s.store.Reaches view i)
    (ha : ∀ e < cnt, ∀ l < lane.toInt.toNat,
      (Site.rows lane length (ctx.group * ctx.groupSize)).Shows c.views s.store 0 e l (a e l).1) :
    ∃ s', Run.exec ctx ((c.scan test w).run n).1 (schedule.order ctx.groupSize.toInt.toNat) s = .ok () s' ∧
      (∀ l < lane.toInt.toNat, ∀ column : Column c.lambda op start cnt (a · l), ∃ s₁, column.run = .ok () s₁ ∧
        ∀ e < cnt, ∃ x : c.lambda.Tuple,
          (Site.rows lane length (ctx.group * ctx.groupSize)).Shows c.views s'.store 0 e l x.1 ∧
            (Site.shared column.first).Shows column.views s₁.store 0 e 0 x.1) ∧
      ∀ group : Int64, group ≠ ctx.group → 0 ≤ group.toInt → group.toInt < ctx.numGroups.toInt →
        ∀ e < ctx.groupSize.toInt.toNat, ∀ l < lane.toInt.toNat, ∀ p,
          tupleSlots c.views ((Site.rows lane length (group * ctx.groupSize)).spot 0 e l).toInt.toNat p →
            s'.store.bits? p = s.store.bits? p := by
  have hpositions : ∀ r e l, (hstarts.rows hlayout hlies).has r e → l < lane.toInt.toNat → ∀ view ∈ c.views,
      s.store.Reaches view ((hstarts.rows hlayout hlies).position r e l) := by
    rintro r e l ⟨hr, he⟩ hl view hview
    refine hreaches view hview _ ?_
    obtain ⟨hnonneg, hlt⟩ := spot_rows (hstarts.valid_row hlayout hlies hr he) hl
    obtain ⟨-, hrow, hrowlt⟩ := row_bounds (hstarts.valid_row hlayout hlies hr he) hl
    have hthree : r.toInt + 1 ≤ 3 := by
      obtain rfl | rfl | rfl := hr <;> decide
    have hend : (r.toInt + 1) * length.toInt ≤ 3 * length.toInt := Int.mul_le_mul_of_nonneg_right hthree (by omega)
    show (((Site.rows lane length (ctx.group * ctx.groupSize)).spot r e l).toInt.toNat : Int) < _
    rw [Int.toNat_of_nonneg hnonneg]
    exact Int.lt_of_lt_of_le hlt hend
  obtain ⟨f, hf, hfa⟩ := exists_filled hpositions (fun e he => ⟨.inl rfl, by omega⟩) ha
  obtain ⟨s', hrun, hm⟩ := hstarts.exec_scan_rows schedule hlayout hlies hsegments hw hcnt hsize hlimit hlanes hf
  have hbound : cnt ≤ 1024 := Int.ofNat_le.mp (Int.le_trans hcnt hsize)
  refine ⟨s', hrun, fun l hl column => ?_, fun group hne hgroup hlt e he l hl p hp => hm.frame p ?_⟩
  · obtain ⟨s₁, hrun₁, hshows⟩ := column.run_shows hop
    refine ⟨s₁, hrun₁, fun e he => ⟨_, ?_, hshows e he⟩⟩
    have := hm.shows (r := 0) (e := e) ⟨.inl rfl, by omega⟩ hl
    rwa [rowScan_eq hop hsegments.segmentation (fun _ _ => rfl) hbound he,
      foldSpan_congr (hsegments.segmentation.le e) fun i _ hi => hfa i (Nat.lt_of_le_of_lt hi he) l hl] at this
  · rintro ⟨r, e', l', ⟨hr, he'⟩, hl', hslot⟩
    exact hstarts.other_rows hlayout hlies hne hgroup hlt hr he he' hl hl' hp hslot

/-- The scan of the second lanes of the rows, as one segment of two. -/
def secondColumn :
    Column pairRows.lambda sum (fun i => i / (2 : Int64).toInt.toNat * (2 : Int64).toInt.toNat) 2 (counted · 1) where
  launch := pairRows.launch
  views := (pairScalars (.int 0)).views
  base := .int 0
  test := some (crossesSegment (.int 2))
  count := .int 2
  ctx := uncheckedContext
  state := cellState 2 fun e => 3 * (2 + e) + 1
  names := 0
  first := 0
  schedule := .forward
  starts := cells_starts
  knowsBase := cells_knows (counted_knows (by decide) (by decide +kernel))
  segments := .ofSize (cells_knows (counted_knows (by decide) (by decide +kernel))) (by decide)
  knowsCount := cells_knows (counted_knows (by decide) (by decide +kernel))
  fits := by decide
  size := by decide
  limit := by decide
  shows e he := by
    have hspot : ∀ e < 2, ((Site.shared 0).spot 0 e 0).toInt.toNat = e ∧ 0 ≤ ((Site.shared 0).spot 0 e 0).toInt := by
      decide +kernel
    obtain ⟨hposition, hnonneg⟩ := hspot e he
    refine ⟨hnonneg, ?_⟩
    rw [hposition]
    exact cells_holds _ _ he

/-- The rows of the second group and the column of their second lanes, each a segment of two. -/
theorem counted_scan_rows_agrees : ∃ s',
    Run.exec uncheckedContext ((pairRows.scan (some (crossesSegment (.int 2))) (.int 2)).run 0).1 [1, 0] countedState =
      .ok () s' ∧ ∃ s₁, secondColumn.run = .ok () s₁ ∧ ∀ e < 2, ∃ x : pairRows.lambda.Tuple,
      (Site.rows 3 12 (1 * 2)).Shows pairRows.views s'.store 0 e 1 x.1 ∧
        (Site.shared 0).Shows (pairScalars (.int 0)).views s₁.store 0 e 0 x.1 := by
  have htwo : countedState.Knows uncheckedContext 0 (.int 2) fun _ => 2 := counted_knows (by decide) (by decide +kernel)
  have hcount : countedState.Knows uncheckedContext 0 (.int 2) fun _ => Int64.ofNat 2 := htwo
  have hlength : (12 : Int64).toInt = 12 := rfl
  obtain ⟨s', hrun, hagrees, -⟩ := scan_rows_agrees .reverse counted_starts rfl
    (counted_liesAt (by decide)) sum_associative (.ofSize htwo (by decide)) hcount (by decide) (by decide) (by decide)
      (by decide)
    (fun view hview i hi => (counted_holds (i := i) (by omega)).reaches view hview) (a := counted)
    fun e he l hl => counted_shows he hl
  exact ⟨s', hrun, hagrees 1 (by decide) secondColumn⟩

end SegKernel.Collective
