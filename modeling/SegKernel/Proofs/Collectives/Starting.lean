import SegKernel.Proofs.Collectives.Areas
import SegKernel.Proofs.Convergence.Kernels
import SegKernel.Proofs.Races.Collectives

/-! Whole groups that start collective operations, and the elements in their memory. -/

namespace SegKernel

/-- The threads know where the elements lie. Rows lie in regions with a row for each thread of the launch,
    of which a group has those from its first thread on. -/
def Layout.LiesAt (layout : Layout) (launch : Launch) (regions : Nat) (ctx : GroupContext) (s : GroupState) (n : Nat)
    (place : Site) : Prop :=
  match layout with
  | .shared base => ∃ b, place = .shared b ∧ s.Knows ctx n base fun _ => b
  | .rows lanes regionLength => ∃ lane length, place = .rows lane length (ctx.group * ctx.groupSize) ∧
    s.Knows ctx n lanes (fun _ => lane) ∧ s.Knows ctx n regionLength (fun _ => length) ∧
      s.Knows ctx n launch.groupBase (fun _ => ctx.group * ctx.groupSize) ∧
      length.toInt = ctx.numGroups.toInt * ctx.groupSize.toInt * lane.toInt ∧
      regions * length.toInt ≤ Int64.maxValue.toInt ∧ 0 ≤ ctx.group.toInt ∧ ctx.group.toInt < ctx.numGroups.toInt

namespace Collective
variable {c : Collective} {ctx : GroupContext} {s : GroupState} {n : Nat}
  {op : c.lambda.Tuple → c.lambda.Tuple → c.lambda.Tuple} {place : Site} {regions cnt : Nat}

/-- A whole group starts an operation that takes names from number `n` on and combines tuples as `op` does.
    No one looks for races. -/
structure Starts (c : Collective) (ctx : GroupContext) (s : GroupState) (n : Nat)
    (op : c.lambda.Tuple → c.lambda.Tuple → c.lambda.Tuple) : Prop where
  threads : s.threads.size = ctx.groupSize.toInt.toNat
  positive : 0 < ctx.groupSize.toInt
  unchecked : ctx.checkRaces = false
  localId : s.Knows ctx n c.launch.ltid Int64.ofNat
  wave : s.Knows ctx n c.launch.wave fun _ => ctx.wave
  groupSize : s.Knows ctx n c.launch.groupSize fun _ => ctx.groupSize
  free : ∀ x, New n x → ctx.captured[x]? = none
  typed : c.Typed
  computes : ∀ t < ctx.groupSize.toInt.toNat, c.lambda.Computes (knowledge s ctx n t) op

namespace Starts

/-- The threads in the order of a schedule. -/
def team (h : c.Starts ctx s n op) (schedule : Schedule) : Team where
  ctx := ctx
  order := schedule.order ctx.groupSize.toInt.toNat
  size := ctx.groupSize.toInt.toNat
  own _ _ := False
  oneWave hon := absurd (h.unchecked.symm.trans hon) Bool.false_ne_true
  nodup := (squad ctx schedule c h.positive).nodup
  mem_order := (squad ctx schedule c h.positive).mem_order
  pos := (squad ctx schedule c h.positive).pos

theorem size_eq (h : c.Starts ctx s n op) (schedule : Schedule) : ctx.groupSize.toInt = (h.team schedule).size := by
  have := h.positive
  show _ = ((ctx.groupSize.toInt.toNat : Nat) : Int)
  omega

/-- What the threads know and own when they start. -/
noncomputable abbrev starting (h : c.Starts ctx s n op) (schedule : Schedule) : Nat → Thread → Prop :=
  (h.team schedule).Knows (knowledge s ctx n) fun t => (s.thread t).arrays

/-- What a group makes of its memory is what it makes of the memory it starts with. -/
theorem run (h : c.Starts ctx s n op) (schedule : Schedule) {K : Slot → Prop} {M M' : Store → Prop} {stmt : Stmt}
    {T : Nat → Thread → Prop} (hdoes : (h.team schedule).Does K (h.starting schedule) M stmt T M') (hM : M s.store) :
    (∃ s', Run.exec ctx stmt (schedule.order ctx.groupSize.toInt.toNat) s = .ok () s' ∧ M' s'.store ∧
      ∀ t < ctx.groupSize.toInt.toNat, T t (s'.thread t)) ∧
    ∀ e ∈ Run.trace Run.touchesAt ctx stmt (schedule.order ctx.groupSize.toInt.toNat) s, e.Reads fun _ => K := by
  have start : (h.team schedule).Has (h.starting schedule) s.store s := {
    size := h.threads
    threads := fun t _ => ⟨knowledge_le t, rfl⟩
    store := rfl
    log := fun hon => absurd (h.unchecked.symm.trans hon) Bool.false_ne_true }
  obtain ⟨htakes, hreads⟩ := hdoes s.store hM
  obtain ⟨s', hrun, hs', hM'⟩ := htakes s start
  exact ⟨⟨s', hrun, hs'.store ▸ hM', hs'.threads⟩, hreads s start⟩

/-- The threads know what it takes to work on an area of elements. -/
theorem manned (h : c.Starts ctx s n op) (schedule : Schedule) {A : c.Area}
    (hlies : c.layout.LiesAt c.launch regions ctx s n A.place)
    (hlimit : A.place.laneCount ≤ ctx.loopLimit) : A.Manned (h.team schedule) op (knowledge s ctx n) n where
  before t _ := knowledge_before t
  lies t ht := by
    unfold Lies
    unfold Layout.LiesAt at hlies
    split at hlies
    · rename_i hlayout
      obtain ⟨b, hplace, hb⟩ := hlies
      rw [hlayout, hplace]
      exact eval_knowledge hb ht
    · rename_i hlayout
      obtain ⟨lane, length, hplace, hlane, hlength, hbase, -⟩ := hlies
      rw [hlayout, hplace]
      exact ⟨eval_knowledge hlane ht, eval_knowledge hlength ht, eval_knowledge hbase ht⟩
  computes := h.computes
  localId t ht := eval_knowledge h.localId ht
  wave t ht := eval_knowledge h.wave ht
  groupSize t ht := eval_knowledge h.groupSize ht
  size_eq := h.size_eq schedule
  limit := hlimit
  unchecked := h.unchecked
  free := h.free

/-- The elements of whole regions of rows can be told apart, and so can scalars. -/
theorem valid (h : c.Starts ctx s n op) (hlies : c.layout.LiesAt c.launch regions ctx s n place) {r : Int64} {e : Nat}
    (hr : 0 ≤ r.toInt) (hlt : r.toInt < regions) (hzero : c.layout.isRows = false → r = 0)
    (he : e < ctx.groupSize.toInt.toNat) : place.Valid r (Int64.ofNat e) := by
  have hsize := h.size_eq .forward
  unfold Layout.LiesAt at hlies
  split at hlies
  · rename_i hlayout
    obtain ⟨b, rfl, -⟩ := hlies
    exact hzero (by rw [hlayout]; rfl)
  · obtain ⟨lane, length, rfl, -, -, -, hlength, hend, hgroup, hgroups⟩ := hlies
    have he' := Squad.toInt_ofNat (n := e) (by have := (fits_toInt ctx.groupSize).2; omega)
    rw [hsize] at hlength
    refine fits_rows hlength hend hgroup hgroups (fun hpos => toInt_groupBase hsize hlength hgroup hgroups hpos)
      r _ hr hlt
      (by omega) ?_
    rw [he']
    exact Int.ofNat_lt.mpr he

/-- The first elements, of which the memory shows tuples. -/
def elements (h : c.Starts ctx s n op) (hlies : c.layout.LiesAt c.launch regions ctx s n place) (hregions : 0 < regions)
    (hcnt : cnt ≤ ctx.groupSize.toInt) {a : Nat → Nat → c.lambda.Tuple}
    (ha : ∀ e < cnt, ∀ l < place.laneCount, place.Shows c.views s.store 0 e l (a e l).1) : c.Area where
  place := place
  has r e := r = 0 ∧ e < cnt
  valid := by
    rintro r e ⟨rfl, he⟩
    exact h.valid hlies (Int.le_refl 0) (by simpa using hregions) (fun _ => rfl) (by omega)
  lt := by
    rintro r e ⟨-, he⟩
    have := (fits_toInt ctx.groupSize).2
    omega
  nonneg := by
    rintro r e l ⟨rfl, he⟩ hl
    exact (ha e he l hl).1
  typed := h.typed

section Elements
variable {a : Nat → Nat → c.lambda.Tuple} (h : c.Starts ctx s n op)
  (hlies : c.layout.LiesAt c.launch regions ctx s n place) (hregions : 0 < regions) (hcnt : cnt ≤ ctx.groupSize.toInt)
  (ha : ∀ e < cnt, ∀ l < place.laneCount, place.Shows c.views s.store 0 e l (a e l).1)

/-- The memory is filled with what it shows. -/
theorem filled : (h.elements hlies hregions hcnt ha).Filled s.store (fun _ => a) s.store where
  layout _ _ := rfl
  holds := by
    rintro r e l ⟨rfl, he⟩ hl
    exact (ha e he l hl).2
  frame _ _ := rfl

end Elements
end Starts

/-! ### Rows of two groups -/

/-- The number in a tuple of one. -/
def word (x : pairRows.lambda.Tuple) : Int64 :=
  match x.1 with
  | [.i64 a] => a
  | _ => 0

def single (a : Int64) : pairRows.lambda.Tuple := ⟨[.i64 a], rfl⟩

def sum (x y : pairRows.lambda.Tuple) : pairRows.lambda.Tuple := single (word x + word y)

theorem exists_single (x : pairRows.lambda.Tuple) : ∃ a, x = single a := by
  obtain ⟨vs, hvs⟩ := x
  match vs, hvs with
  | [.i64 a], _ => exact ⟨a, rfl⟩

theorem sum_associative : Std.Associative sum where
  assoc x y z := congrArg single (Int64.add_assoc (word x) (word y) (word z))

theorem sum_computes : pairRows.lambda.Computes (fun _ => none) sum := by
  intro x y
  obtain ⟨a, rfl⟩ := exists_single x
  obtain ⟨b, rfl⟩ := exists_single y
  exact .cons rfl .nil

/-- The rows hold the numbers of their positions. -/
def countedState : GroupState :=
  { pairState with global := ({} : Memory).insert "rows" ⟨.i64, (Array.range 36).map UInt64.ofNat⟩ }

def uncheckedContext : GroupContext := { pairContext with checkRaces := false }

/-- An array that holds numbers. -/
theorem holds_numbers {m : Store} {view : View} {i : Nat} (count : Nat) (number : Nat → Nat) (htype : view.type = .i64)
    (hbuffer : m.buffer? view.space view.array = some ⟨.i64, (Array.range count).map fun i => UInt64.ofNat (number i)⟩)
    (hi : i < count) : m.Holds view i (.i64 (Int64.ofNat (number i))) := by
  refine ⟨⟨.i64, count, ?_, by rw [htype], hi⟩, UInt64.ofNat (number i), ?_, ?_⟩
  · simp [Store.layout?, hbuffer]
  · simp [Store.bits?, hbuffer, hi]
  · rw [htype]
    rfl

theorem counted_holds {i : Nat} (hi : i < 36) :
    countedState.store.HoldsAll pairRows.views i (single (Int64.ofNat i)).1 :=
  .cons (holds_numbers 36 id rfl (by simp [Store.buffer?, countedState, GroupState.store]) hi) .nil

/-- The number at a lane of a row of the second group, in the first region. -/
def counted (e l : Nat) : pairRows.lambda.Tuple := single (Int64.ofNat (3 * (2 + e) + l))

theorem counted_shows {e l : Nat} (he : e < 2) (hl : l < 3) :
    (Site.rows 3 12 2).Shows pairRows.views countedState.store 0 e l (counted e l).1 := by
  have hspot : ∀ e < 2, ∀ l < 3, ((Site.rows 3 12 2).spot 0 e l).toInt.toNat = 3 * (2 + e) + l ∧
      0 ≤ ((Site.rows 3 12 2).spot 0 e l).toInt := by decide +kernel
  obtain ⟨hposition, hnonneg⟩ := hspot e he l hl
  exact ⟨hnonneg, hposition ▸ counted_holds (by omega)⟩

theorem counted_knows {x : Exp} {value : Nat → Int64} (hold : ∀ y ∈ x.occurrences, '_' ∉ y.toList)
    (heval : ∀ t < 2, (x.eval (pairState.scope pairContext t)).toOption = some (.i64 (value t))) :
    countedState.Knows uncheckedContext 0 x value :=
  let known := pair_knows hold heval
  ⟨known.old, known.eval⟩

theorem counted_starts : pairRows.Starts uncheckedContext countedState 0 sum where
  threads := rfl
  positive := by decide
  unchecked := rfl
  localId := counted_knows (by decide) (by decide +kernel)
  wave := counted_knows (by decide) (by decide +kernel)
  groupSize := counted_knows (by decide) (by decide +kernel)
  free x hx := by
    have hold : ¬Generated "wave" := not_generated (by decide)
    have hne : "wave" ≠ x := fun h => hold (h ▸ hx.generated)
    show (Std.ExtTreeMap.ofList [("wave", Value.i64 1)])[x]? = none
    rw [Std.ExtTreeMap.ofList_singleton, Table.getElem?_insert_of_ne _ _ hne, Std.ExtTreeMap.getElem?_empty]
  typed := ⟨List.pairwise_singleton _ _, rfl⟩
  computes t _ := sum_computes.mono nofun

theorem counted_liesAt {regions : Nat} (hend : regions * (12 : Int64).toInt ≤ Int64.maxValue.toInt) :
    pairRows.layout.LiesAt pairRows.launch regions uncheckedContext countedState 0 (.rows 3 12 2) :=
  ⟨3, 12, rfl, counted_knows (by decide) (by decide +kernel), counted_knows (by decide) (by decide +kernel),
    counted_knows (by decide) (by decide +kernel), by decide, hend, by decide, by decide⟩

end Collective
end SegKernel
