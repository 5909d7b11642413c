import SegKernel.Device.Basic
import SegKernel.Proofs.Evaluation.Variables
import SegKernel.Proofs.Races.Chunks

/-! No collective operation races that starts after a barrier. -/

namespace SegKernel

/-- No access is of a later epoch. This holds of every log that is recorded access by access. -/
def RaceLog.Past (log : RaceLog) : Prop :=
  ∀ l, (log.cells.getD l {}).Within log.epoch (fun _ => True) fun _ => True

namespace RaceLog.Past
variable {log log' : RaceLog} {l : Location} {wave : Int64} {isWrite : Bool}

theorem empty : Past {} := by
  intro l
  rw [show ({} : RaceLog).cells.getD l {} = {} from Std.ExtTreeMap.getD_empty]
  exact ⟨nofun, Nat.le_refl 0, nofun⟩

theorem nextEpoch (h : Past log) : Past log.nextEpoch := fun l => (h l).next

theorem record (h : Past log) (hrecord : log.record l wave isWrite = .ok log') : Past log' := by
  obtain ⟨a, ha, rfl⟩ := record_eq_ok.mp hrecord
  intro k
  rw [getD_setCell]
  split
  · have past := h l
    cases isWrite with
    | true =>
      obtain ⟨-, -, rfl⟩ := Accesses.write_eq_ok.mp ha
      exact ⟨fun e w he => by cases he; exact ⟨Nat.le_refl _, fun _ => trivial⟩, past.readEpoch, past.readers⟩
    | false =>
      obtain ⟨-, rfl⟩ := Accesses.read_eq_ok.mp ha
      exact ⟨past.lastWrite, Nat.le_refl _, fun _ _ _ => trivial⟩
  · exact h k

end RaceLog.Past

/-- All threads of a group know an integer, and that without the names taken from number `n` on. -/
structure GroupState.Knows (s : GroupState) (ctx : GroupContext) (n : Nat) (x : Exp) (value : Nat → Int64) : Prop where
  old : ∀ y ∈ x.occurrences, ¬New n y
  eval : ∀ t < ctx.groupSize.toInt.toNat, x.eval (s.scope ctx t) = .ok (.i64 (value t))

/-- The threads know where the elements lie. Rows lie in regions with a row for each thread of the launch,
    of which a group has those from its first thread on. -/
def Layout.Placed (layout : Layout) (launch : Launch) (regions : Nat) (ctx : GroupContext) (s : GroupState) (n : Nat) :
    Prop :=
  match layout with
  | .shared base => ∃ b, s.Knows ctx n base fun _ => b
  | .rows lanes regionLength => ∃ lane length,
    s.Knows ctx n lanes (fun _ => lane) ∧ s.Knows ctx n regionLength (fun _ => length) ∧
      s.Knows ctx n launch.groupBase (fun _ => ctx.group * ctx.groupSize) ∧
      length.toInt = ctx.numGroups.toInt * ctx.groupSize.toInt * lane.toInt ∧
      regions * length.toInt ≤ Int64.maxValue.toInt ∧ 0 ≤ ctx.group.toInt ∧ ctx.group.toInt < ctx.numGroups.toInt

namespace Collective
open Watch Squad

/-- A collective operation of the threads of a group. -/
inductive Operation
  | reduce
  | scan (test : Option SegmentTest)
  | reduceChunks
  | scanChunks (test : Option SegmentTest)

namespace Operation

/-- The code of the operation on the first `w` elements. -/
def code (c : Collective) (w : Exp) : Operation → Fresh Stmt
  | reduce => c.reduce w
  | scan test => c.scan test w
  | reduceChunks => Collective.reduceChunks c.launch c.lambda c.views w
  | scanChunks test => Collective.scanChunks c.launch c.lambda c.views test w

/-- The layout of the elements; chunks are made of shared memory. -/
def layout (c : Collective) : Operation → Layout
  | reduce | scan _ => c.layout
  | reduceChunks | scanChunks _ => .shared (.int 0)

/-- How many regions of rows the operation uses. -/
def regions : Operation → Nat
  | reduce | reduceChunks => 1
  | scan _ | scanChunks _ => 3

def isScan : Operation → Bool
  | reduce | reduceChunks => false
  | scan _ | scanChunks _ => true

def isChunked : Operation → Bool
  | reduce | scan _ => false
  | reduceChunks | scanChunks _ => true

end Operation

/-- The group is whole, and its threads know their places and the sizes of the launch. -/
structure Prepared (c : Collective) (ctx : GroupContext) (s : GroupState) (n : Nat) : Prop where
  threads : s.threads.size = ctx.groupSize.toInt.toNat
  positive : 0 < ctx.groupSize.toInt
  localId : s.Knows ctx n c.launch.ltid Int64.ofNat
  wave : s.Knows ctx n c.launch.wave fun _ => ctx.wave
  groupSize : s.Knows ctx n c.launch.groupSize fun _ => ctx.groupSize
  log : s.races.Past

/-- The collective with the layout that an operation works on. -/
def Operation.target (op : Operation) (c : Collective) : Collective := { c with layout := op.layout c }

variable {c : Collective} {G : Squad} {n : Nat}

/-- An operation that starts after a barrier does not race. -/
theorem Operation.code_leads (op : Operation) (hG : G.Regular) (hlimit : op.isScan = true → G.size ≤ 1024) (w : Exp) :
    Fresh.At n (op.code c w) fun _ code => ∀ (τ : Nat → Scope) place (count : Int64),
      ((op.layout c).isRows = true → place.Fits op.regions G.size) → (op.target c).Ready G τ n place →
        (∀ t < G.size, w.eval (τ t) = .ok (.i64 count)) → (op.isChunked = false → count.toInt ≤ G.size) →
          G.Leads G.Settled τ code G.Sound τ := by
  -- The operations that work in chunks begin at the start of shared memory.
  have zero : ∀ {launch lambda views place} {τ : Nat → Scope},
      Ready ⟨launch, lambda, views, .shared (.int 0)⟩ G τ n place → place = .shared 0 := by
    intro launch lambda views place τ hready
    obtain ⟨b, rfl, hb⟩ := (hready.lies 0 G.pos).base rfl
    cases hb
    rfl
  cases op with
  | reduce =>
    refine (reduce_leads hG w).imp fun m code _ h τ place count hfits hready hw hcount => ?_
    refine h τ place count ?_ hready hw (hcount rfl)
    cases hlayout : c.layout with
    | shared base =>
      obtain ⟨b, rfl, -⟩ := (hready.lies 0 G.pos).base (c := c) hlayout
      exact fits_shared b G.size
    | rows lanes regionLength => exact hfits (by rw [Operation.layout, hlayout]; rfl)
  | scan test =>
    refine (scan_leads hG (hlimit rfl) test w).imp fun m code _ h τ place count hfits hready hw _ => ?_
    exact (h τ place count hfits hready hw).sound
  | reduceChunks =>
    refine (reduceChunks_leads hG w).imp fun m code _ h τ place count _ hready hw _ => ?_
    obtain rfl := zero hready
    exact (h τ count hready hw).sound
  | scanChunks test =>
    refine (scanChunks_leads hG (hlimit rfl) test w).imp fun m code _ h τ place count _ hready hw _ => ?_
    obtain rfl := zero hready
    exact (h τ count hready hw).sound

/-! ### Any prepared group -/

variable {ctx : GroupContext} {s : GroupState}

/-- What a thread knows without the names taken from number `n` on. -/
noncomputable def knowledge (s : GroupState) (ctx : GroupContext) (n : Nat) (t : Nat) : Scope := fun x =>
  open Classical in if New n x then none else s.scope ctx t x

theorem knowledge_le (t : Nat) : (knowledge s ctx n t).Le (s.scope ctx t) := by
  intro x v hx
  unfold knowledge at hx
  split at hx
  · cases hx
  · exact hx

theorem knowledge_before (t : Nat) : (knowledge s ctx n t).Before n := fun _ hx => if_pos hx

theorem eval_knowledge {x : Exp} {value : Nat → Int64} (h : s.Knows ctx n x value) {t : Nat}
    (ht : t < ctx.groupSize.toInt.toNat) : x.eval (knowledge s ctx n t) = .ok (.i64 (value t)) := by
  rw [← h.eval t ht]
  exact Exp.eval_congr fun y hy => if_neg (h.old y hy)

/-- The threads of a group in the order of a schedule, of which the accesses to some arrays are watched. -/
def squad (ctx : GroupContext) (schedule : Schedule) (c : Collective) (hpos : 0 < ctx.groupSize.toInt) : Squad where
  ctx := ctx
  size := ctx.groupSize.toInt.toNat
  watched l := ∃ view ∈ c.views, l.space = view.space ∧ l.array = view.array
  order := schedule.order ctx.groupSize.toInt.toNat
  nodup := by
    cases schedule with
    | forward => exact List.nodup_range
    | reverse => exact (List.reverse_perm _).nodup_iff.mpr List.nodup_range
  mem_order t := by cases schedule <;> simp [Schedule.order]
  pos := by omega

/-- Waves of a power of two, or threads that are each their own wave. -/
theorem wave_isPower {width wave : Int64} (hwave : wave = max width 1)
    (hwidth : width = 0 ∨ ∃ m : Nat, width.toInt = 2 ^ m) :
    ∃ m : Nat, wave.toInt = (2 ^ m : Nat) := by
  rw [hwave, toInt_max]
  rcases hwidth with rfl | ⟨m, hm⟩
  · exact ⟨0, rfl⟩
  · refine ⟨m, ?_⟩
    have hpos : 0 < 2 ^ m := Nat.pow_pos (by omega)
    have hcast : (2 : Int) ^ m = (2 ^ m : Nat) := (Int.natCast_pow 2 m).symm
    rw [hm, hcast, show (1 : Int64).toInt = 1 from rfl]
    omega

/-- Rows lie apart where the regions can be addressed. -/
theorem fits_rows {size regions : Nat} {lane length first groups group : Int64}
    (hlength : length.toInt = groups.toInt * size * lane.toInt) (hend : regions * length.toInt ≤ Int64.maxValue.toInt)
    (hgroup : 0 ≤ group.toInt) (hlt : group.toInt < groups.toInt)
    (hfirst : 0 < lane.toInt → first.toInt = group.toInt * size) : (Site.rows lane length first).Fits regions size := by
  intro r e hr hrlt he helt hlane
  have hfirst := hfirst hlane
  have hlength0 : 0 ≤ length.toInt := by
    rw [hlength]
    exact Int.mul_nonneg (Int.mul_nonneg (by omega) (by omega)) (by omega)
  refine ⟨hr, ?_, ?_, he, ?_⟩
  · have : (r.toInt + 1) * length.toInt ≤ regions * length.toInt := Int.mul_le_mul_of_nonneg_right (by omega) hlength0
    exact Int.le_trans this hend
  · rw [hfirst]
    exact Int.mul_nonneg hgroup (by omega)
  · rw [hlength, hfirst]
    refine Int.mul_le_mul_of_nonneg_right ?_ (by omega)
    have hnext : (group.toInt + 1) * size ≤ groups.toInt * size := Int.mul_le_mul_of_nonneg_right (by omega) (by omega)
    have hsplit : (group.toInt + 1) * size = group.toInt * size + size := by rw [Int.add_mul, Int.one_mul]
    omega

/-- The number of the first thread of a group of which the rows can be addressed. -/
theorem toInt_groupBase {size : Nat} {lane length groups group groupSize : Int64} (hsize : groupSize.toInt = size)
    (hlength : length.toInt = groups.toInt * size * lane.toInt) (hgroup : 0 ≤ group.toInt)
    (hlt : group.toInt < groups.toInt) (hlane : 0 < lane.toInt) : (group * groupSize).toInt = group.toInt * size := by
  have hle : group.toInt * size ≤ groups.toInt * size := Int.mul_le_mul_of_nonneg_right (by omega) (by omega)
  have h0 : 0 ≤ group.toInt * size := Int.mul_nonneg hgroup (by omega)
  have hlanes : groups.toInt * size * 1 ≤ groups.toInt * size * lane.toInt :=
    Int.mul_le_mul_of_nonneg_left (by omega) (by omega)
  have hfits := (fits_toInt length).2
  rw [toInt_mul_of_fits (by rw [hsize]; unfold Fits; omega), hsize]

/-- A collective operation that starts after a barrier does not race, whatever the operator, the segments,
    the layout, the waves and the schedule. -/
theorem Operation.never_races (op : Operation) (schedule : Schedule) (fence : Fence) {w : Exp} {width count : Int64}
    (hprepared : c.Prepared ctx s n) (hwave : ctx.wave = max width 1)
    (hwidth : width = 0 ∨ ∃ m : Nat, width.toInt = 2 ^ m) (hplaced : (op.layout c).Placed c.launch op.regions ctx s n)
    (hw : s.Knows ctx n w fun _ => count) (hcount : op.isChunked = false → count.toInt ≤ ctx.groupSize.toInt)
    (hlimit : op.isScan = true → ctx.groupSize.toInt ≤ scanBlockSize.toInt ^ 2) (array : Ident)
    (index first second : Int64) (s' : GroupState) :
    Run.exec ctx (.seq [.barrier fence, ((op.code c w).run n).1]) (schedule.order ctx.groupSize.toInt.toNat) s ≠
      .error (.dataRace array index first second) s' := by
  let G := squad ctx schedule c hprepared.positive
  let τ := knowledge s ctx n
  have hG : G.Regular := ⟨rfl, wave_isPower hwave hwidth⟩
  have hsize : ctx.groupSize.toInt = G.size := hG.toInt_groupSize
  have hlimit : op.isScan = true → G.size ≤ 1024 := fun h => by
    have hbound := hlimit h
    rw [show scanBlockSize.toInt ^ 2 = 1024 from rfl] at hbound
    omega
  -- Memory that is shared starts at a base; that in rows starts at the group's own place.
  have place : ∃ place : Site, ((op.layout c).isRows = true → place.Fits op.regions G.size) ∧
      ∀ t < G.size, (op.target c).Lies (τ t) place := by
    unfold Lies Operation.target
    cases hlayout : op.layout c with
    | shared base =>
      rw [hlayout] at hplaced
      obtain ⟨b, hb⟩ := hplaced
      exact ⟨.shared b, nofun, fun t ht => eval_knowledge hb ht⟩
    | rows lanes regionLength =>
      rw [hlayout] at hplaced
      obtain ⟨lane, length, hlane, hlength, hbase, hcells, hend, hgroup, hlt⟩ := hplaced
      rw [hsize] at hcells
      refine ⟨.rows lane length (ctx.group * ctx.groupSize), fun _ => ?_, fun t ht =>
        ⟨eval_knowledge hlane ht, eval_knowledge hlength ht, eval_knowledge hbase ht⟩⟩
      exact fits_rows hcells hend hgroup hlt fun hpos => toInt_groupBase hsize hcells hgroup hlt hpos
  obtain ⟨place, hfits, hlies⟩ := place
  have hready : (op.target c).Ready G τ n place := {
    before := fun t _ => knowledge_before t
    localId := fun t ht => eval_knowledge hprepared.localId ht
    wave := fun t ht => eval_knowledge hprepared.wave ht
    groupSize := fun t ht => eval_knowledge hprepared.groupSize ht
    lies := hlies
    watched := fun view hview _ => ⟨view, hview, rfl, rfl⟩ }
  have hcode := (op.code_leads (c := c) (n := n) hG hlimit w).2 τ place count hfits hready
    (fun t ht => eval_knowledge hw ht) fun h => by
      have := hcount h
      omega
  have hbarrier : G.Leads G.Sound τ (.barrier fence) G.Settled τ := leads_barrier fence fun _ hl => hl
  have whole : G.LeadsAll G.Sound τ [.barrier fence, ((op.code c w).run n).1] G.Sound τ := hbarrier.andThen hcode.single
  have ends := whole s hprepared.threads (fun l _ => hprepared.log l) fun t _ => knowledge_le t
  intro hrace
  rw [Run.exec_seq_eq] at hrace
  exact ends.2 _ s' hrace ⟨array, index, first, second, rfl⟩

/-- Rows of three lanes that two groups of two threads scan. -/
def pairRows : Collective where
  launch := {
    globalId := "gtid", localId := "ltid", groupId := "gid", waveWidth := "wave"
    numGroups := .int 2, groupSize := .int 2, numThreads := .int 4 }
  lambda := { params := [⟨"x", .i64⟩, ⟨"y", .i64⟩], results := [.var "x" + .var "y"] }
  views := [⟨"rows", .i64, .global, false⟩]
  layout := .rows (.int 3) (.int 12)

/-- The second one of the groups. -/
def pairContext : GroupContext where
  captured := .ofList [("wave", .i64 1)]
  group := 1
  groupSize := 2
  numGroups := 2
  wave := 1
  loopLimit := 100
  checkRaces := true

def pairState : GroupState where
  threads := #[{ scalars := .ofList [("gtid", .i64 2), ("ltid", .i64 0)] },
    { scalars := .ofList [("gtid", .i64 3), ("ltid", .i64 1)] }]
  global := ({} : Memory).insert "rows" (.zeroed .i64 36)
  stats := {}

theorem pair_knows {x : Exp} {value : Nat → Int64} (hold : ∀ y ∈ x.occurrences, '_' ∉ y.toList)
    (heval : ∀ t < 2, (x.eval (pairState.scope pairContext t)).toOption = some (.i64 (value t))) :
    pairState.Knows pairContext 0 x value where
  old y hy hnew := not_generated (hold y hy) hnew.generated
  eval t ht := ok_of_toOption (heval t ht)

/-- The scan of segments of two rows by the second group. -/
theorem pair_scan_never_races : ¬∃ array index first second s',
    Run.exec pairContext (.seq [.barrier .global,
      ((Operation.code pairRows (.int 2) (.scan (some (crossesSegment (.int 2))))).run 0).1]) [1, 0] pairState =
        .error (.dataRace array index first second) s' := by
  rintro ⟨array, index, first, second, s', hrace⟩
  have hprepared : pairRows.Prepared pairContext pairState 0 := {
    threads := rfl
    positive := by decide
    localId := pair_knows (by decide) (by decide +kernel)
    wave := pair_knows (by decide) (by decide +kernel)
    groupSize := pair_knows (by decide) (by decide +kernel)
    log := .empty }
  have hplaced : (Layout.rows (.int 3) (.int 12)).Placed pairRows.launch 3 pairContext pairState 0 :=
    ⟨3, 12, pair_knows (by decide) (by decide +kernel), pair_knows (by decide) (by decide +kernel),
      pair_knows (by decide) (by decide +kernel), by decide, by decide, by decide, by decide⟩
  have hw : pairState.Knows pairContext 0 (.int 2) fun _ => 2 := pair_knows (by decide) (by decide +kernel)
  have hwave : pairContext.wave = max 0 1 := by decide
  exact Operation.never_races (.scan (some (crossesSegment (.int 2)))) .reverse .global hprepared hwave (Or.inl rfl)
    hplaced hw (by decide) (by decide) array index first second s' hrace

end Collective
end SegKernel
