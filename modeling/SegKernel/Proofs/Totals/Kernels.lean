import SegKernel.Proofs.Introductions.Nested
import SegKernel.Proofs.Lowering.Operations
import SegKernel.Proofs.Maps.Frames
import SegKernel.Proofs.Totals.Folding
import SegKernel.Proofs.Totals.Groups
import SegKernel.Proofs.Totals.Turns

/-! The two kernels of a reduction. -/

namespace SegKernel
open Exp Lowering

/-! ### What is taken apart and checked -/

namespace Total

/-- The destinations of the totals, which come first. -/
def dests (Ts : List Total) (pattern : List PatElem) : List View :=
  (pattern.zip (types Ts)).map fun (p, type) => ⟨p.name, type, .global, false⟩

/-- Views that are found one after another are the destinations. -/
theorem eq_dests {known : PatElem → ScalarType → Prop} {views : List View} :
    ∀ {pattern : List PatElem} {types : List ScalarType},
    List.Forall₂ known (pattern.take types.length) types →
    List.Forall₂ (fun p view => ∀ type, known p type → view = (⟨p.name, type, .global, false⟩ : View))
      (pattern.take types.length) views →
      views = (pattern.zip types).map fun (p, type) => (⟨p.name, type, .global, false⟩ : View)
  | _, [], _, .nil => by simp
  | [], _ :: _, h, _ => by cases h
  | p :: pattern, type :: types, .cons hp hknown, .cons hview hviews => by
    rw [hview type hp, eq_dests hknown hviews]
    rfl

end Total

namespace BodyResult

theorem plain_eq_ok {result : BodyResult} {cause : Defect} {span : Option Span} {value : Operand} {setting : Setting}
    {s s' : Session} :
    result.plain cause span setting s = .ok (value, s') ↔ result = .returns value ∧ s' = s := by
  cases result with
  | returns operand => simpa [plain, eq_comm] using pure_eq_ok (a := operand) (b := value)
  | tile | write | concat => simpa [plain, defect] using (throw_ne_ok (σ := s)).mp

end BodyResult

namespace Segmented
variable {op : SegOp} {H : Surroundings} {pattern : List PatElem} {Ts : List Total} {setting : Setting} {s s' : Session}
  {u : Unit} {n limit : Nat} {parts : ReductionParts}

theorem sum_arity (h : ∀ T ∈ Ts, T.combiner.lambda.resultTypes.length = T.combiner.lambda.arity) :
    (Ts.map (·.combiner)).foldl (fun n op => n + op.lambda.arity) 0 = (Total.types Ts).length := by
  rw [foldl_add (fun op : Combiner => op.lambda.arity), Nat.zero_add, List.map_map, Total.types, List.length_flatMap]
  exact congrArg List.sum (List.map_congr_left fun T hT => (h T hT).symm)

/-- A reduction has as many results as destinations. The first results are plain values, which the totals get; the
    others are mapped. -/
theorem reductionParts_eq_ok (R : op.Reduces H pattern Ts n limit) (henv : setting.env = H.env)
    (h : reductionParts pattern op (Ts.map (·.combiner)) setting s = .ok (parts, s')) : s' = s ∧
      List.Forall₂ (fun r x => ∃ value, r = BodyResult.returns value ∧ x = value.toExp)
        (op.results.take (Total.types Ts).length)
        parts.contributions ∧ parts.dests = Total.dests Ts pattern ∧
      parts.mapped = (pattern.drop (Total.types Ts).length).zip (op.results.drop (Total.types Ts).length) := by
  have hcomponents := sum_arity fun T hT => (R.lawful T hT).length_left
  unfold reductionParts at h
  dsimp only at h
  split at h
  · exact absurd h limitation_bind_ne_ok
  -- Only operators on scalars are left, once the limitations are past.
  generalize (Ts.map (·.combiner)).find? (!·.isScalar) = bad? at h
  cases bad? with
  | some bad => exact absurd h limitation_bind_ne_ok
  | none =>
    rw [hcomponents] at h
    simp only [bind_eq_ok, check_eq_ok, inRange_eq_ok, pure_eq_ok] at h
    obtain ⟨_, _, ⟨hcounts, rfl⟩, _, _, ⟨-, rfl⟩, contributions, s₁, hcontributions, _, _, ⟨-, rfl⟩, dests, s₂, hdests,
      rfl, rfl⟩ := h
    obtain ⟨hcount, hresults⟩ := of_decide_eq_true hcounts
    obtain ⟨hplain, rfl⟩ := forall₂_of_mapM_eq_ok
      (R := fun r x => ∃ value, r = BodyResult.returns value ∧ x = value.toExp)
      (fun r x σ' hx => by
        obtain ⟨value, σ₁, hvalue, hx⟩ := bind_eq_ok.mp hx
        obtain ⟨rfl, rfl⟩ := pure_eq_ok.mp hx
        obtain ⟨rfl, rfl⟩ := BodyResult.plain_eq_ok.mp hvalue
        exact ⟨⟨value, rfl, rfl⟩, rfl⟩) hcontributions
    obtain ⟨hviews, rfl⟩ := forall₂_of_mapM_eq_ok
      (R := fun p view => ∀ type, (∃ shape, H.env.arrays[p.name]? = some (type, shape)) →
        view = (⟨p.name, type, .global, false⟩ : View))
      (fun p view σ' hp => by
        obtain ⟨a, σ₁, ha, hp⟩ := bind_eq_ok.mp hp
        obtain ⟨rfl, rfl⟩ := pure_eq_ok.mp hp
        obtain ⟨ha, rfl⟩ := globalArray_eq_ok.mp ha
        refine ⟨fun type ⟨shape, hshape⟩ => ?_, rfl⟩
        rw [SegKernel.globalArray?, henv, hshape] at ha
        exact congrArg ArrayInfo.view (Option.some.inj ha).symm) hdests
    refine ⟨rfl, hplain, Total.eq_dests (R.dests.imp fun _ _ h => h.1) hviews, ?_⟩
    exact List.drop_zipWith

/-! ### The code of a thread -/

/-- The code that sets variables to the results of an operator shares no array. -/
theorem sharedArrays_assign (l : Lambda) (xs ys : List Exp) (names : List Ident) (n : Nat) :
    ((l.assign xs ys names).run n).1.sharedArrays = [] := by
  refine (show Stmt.Private (fun _ => False) _ from ?_).shared
  unfold Lambda.assign
  dsimp only
  split
  · refine .block fun stmt hstmt => ?_
    obtain ⟨p, -, rfl⟩ := List.mem_map.mp hstmt
    exact .of_nil rfl rfl
  · refine .block (List.forall_mem_append.mpr ⟨fun stmt hstmt => ?_, fun stmt hstmt => ?_⟩)
    · obtain ⟨p, -, rfl⟩ := List.mem_map.mp hstmt
      exact .declareInit id
    · obtain ⟨p, -, rfl⟩ := List.mem_map.mp hstmt
      exact .of_nil rfl rfl

/-- The code with which a point is folded in takes new names, and shares no array. -/
theorem sharedArrays_foldAll : ∀ {accs : List Accumulator} {values : List Exp} {s s' : Session} {code : List Stmt},
    Accumulator.foldAll accs values setting s = .ok (code, s') →
      (∀ stmt ∈ code, stmt.sharedArrays = []) ∧ s.names ≤ s'.names ∧ s'.program = s.program
  | [], _, _, _, _, h => by
    obtain ⟨rfl, rfl⟩ := pure_eq_ok.mp h
    exact ⟨by simp, Nat.le_refl _, rfl⟩
  | a :: accs, values, s, s', code, h => by
    simp only [Accumulator.foldAll, bind_eq_ok, inRange_eq_ok, lift_eq_ok, pure_eq_ok] at h
    obtain ⟨_, s, ⟨-, rfl⟩, _, _, ⟨rfl, rfl⟩, rest, _, hrest, rfl, rfl⟩ := h
    obtain ⟨hshared, hnames, hprogram⟩ := sharedArrays_foldAll hrest
    have hle := (Solo.ensures_assign (n := s.names) a.op.lambda (a.vars.map .var) (values.take a.vars.length) a.vars).1
    exact ⟨List.forall_mem_cons.mpr ⟨sharedArrays_assign _ _ _ _ _, hshared⟩, hle.trans hnames, hprogram⟩

/-- The code with which the threads find and fold their points shares no array, if the visit of a point does not. -/
theorem sharedArrays_foldCode {accs : List Accumulator} {perThread k : Ident} {text : String} {count point bound : Exp}
    {visit : Stmt} (hvisit : visit.sharedArrays = []) (numGroups groupSize : Exp) (n : Nat) :
    ∀ stmt ∈ ((Launch.start numGroups groupSize).run n).1.2 :: Team.foldCode accs perThread k text count point bound visit,
      stmt.sharedArrays = [] := by
  have visits : (Stmt.when (point.lt bound) visit).Private fun _ => False := .when ⟨hvisit, fun _ _ => id⟩
  refine List.forall_mem_cons.mpr ⟨(private_entry (K := fun _ => False) (fun _ => False.elim) _ _ _).shared,
    List.forall_mem_append.mpr ⟨fun stmt hstmt => ?_, List.forall_mem_cons.mpr ⟨rfl, List.forall_mem_singleton.mpr ?_⟩⟩⟩
  · obtain ⟨a, -, rfl⟩ := List.mem_map.mp hstmt
    refine (Stmt.Private.block (K := fun _ => False) fun stmt hstmt => ?_).shared
    obtain ⟨p, -, rfl⟩ := List.mem_map.mp hstmt
    exact .declareInit id
  · exact visits.shared

/-! ### The launches -/

/-- What a device needs to reduce `n` points in `P` groups of `G` threads. -/
structure Affords (op : SegOp) (H : Surroundings) (d : Device) (P G n : Nat) : Prop where
  sized : op.Sized H P G
  unchecked : d.checkRaces = false
  limit : 62 ≤ d.loopLimit
  wave : d.wave = 0 ∨ ∃ m : Nat, d.wave.toInt = 2 ^ m
  width : G ≤ 2 ^ 62
  points : Fits ((n + P * G : Nat) : Int) ∧ (n + P * G - 1) / (P * G) ≤ d.loopLimit
  partials : Fits ((P + G : Nat) : Int) ∧ (P + G - 1) / G ≤ d.loopLimit

variable {d : Device} {P G g : Nat}

theorem Affords.equipped (A : op.Affords H d P G n) (hop : op.WellNamed H.env) (P' g : Nat) :
    (groupAt H d P' A.sized.threads g).Equipped op H g where
  wellNamed := hop
  captured := rfl
  group := rfl
  size := rfl
  unchecked := A.unchecked
  limit := A.limit
  waved := Collective.waved_of_width rfl A.wave A.width

/-- The points of a thread lie next to each other, unless no operator minds their order. -/
def sharing (Ts : List Total) : Sharing := if (Ts.map (·.combiner)).all (·.commutative) then .strided else .contiguous

/-- The points of a thread of a launch. -/
def share (Ts : List Total) (threads n : Nat) :
    Nat → List Nat := (sharing Ts).share threads ((n + threads - 1) / threads) n

/-- The expression of a point in the first kernel. -/
def pointExp (Ts : List Total) (launch : Launch) (perThread k : Ident) : Exp :=
  if (Ts.map (·.combiner)).all (·.commutative) then Exp.var k * launch.numThreads + launch.gtid
  else launch.gtid * .var perThread + .var k

theorem isInt_pointExp {τ : Scope} {launch : Launch} {perThread k : Ident} {threads p i j : Nat}
    (hplace : IsInt τ launch.gtid i) (hthreads : IsInt τ launch.numThreads threads)
    (hturns : IsInt τ (.var perThread) p) (hturn : IsInt τ (.var k) j)
    (hfits : Fits (((sharing Ts).point threads p i j : Nat) : Int)) :
    IsInt τ (pointExp Ts launch perThread k) ((sharing Ts).point threads p i j : Nat) := by
  unfold pointExp sharing at *
  split
  · rename_i hall
    rw [if_pos hall] at hfits
    exact Sharing.isInt_strided hplace hthreads hturn hfits
  · rename_i hall
    rw [if_neg hall] at hfits
    exact Sharing.isInt_contiguous _ hplace hturns hturn hfits

/-- Arrays of the program for the components of all totals, with an element for each group. -/
structure Partials (H : Surroundings) (Ts : List Total) (P : Nat) (partials : List View) : Prop where
  types : partials.map (·.type) = Total.types Ts
  global : ∀ view ∈ partials, view.space = .global
  generated : ∀ view ∈ partials, Generated view.array
  apart : ViewsApart partials
  reaches : ∀ g < P, ∀ view ∈ partials, (Store.ofGlobal H.memory).Reaches view g

/-- A computation that is made of the results of a point takes new names only. -/
theorem names_le_of_results {scope : BodyScope} {space : IterationSpace} {results : BoundResults} {code : Stmt}
    (h : scope.threadResults space results setting s = .ok (code, s')) : s.names ≤ s'.names :=
  (scope.threadResults_costs (t := ⟨0, fun _ => 0, fun _ _ _ => Nat.zero_le _⟩) space results _ _ _ h).1

theorem names_le_of_threadBody {scope inner : BodyScope} {code : Stmt}
    (h : BodyStm.threadBody scope op.stms setting s = .ok ((code, inner), s')) : s.names ≤ s'.names :=
  (BodyStm.threadBody_costs (t := ⟨0, fun _ => 0, fun _ _ _ => Nat.zero_le _⟩) scope (fun _ _ => rfl) _ _ _ h).1

/-- What a thread of the first kernel may rely on when it visits a point. -/
theorem sees_of_retains (R : op.Reduces H pattern Ts n limit) {G : Team} {shared global : Memory} {t m : Nat}
    {σ : Scope} (hσ : op.Around H m σ)
    (hretains : H.memory.Retains (fun array => array ∉ pattern.map (·.name) ∧ ¬Generated array) global) :
    (⟨G.ctx, ⟨shared, global⟩, fun _ p => p.array ∈ pattern.map (·.name), t⟩ : Solo).Sees H σ
      fun array => array ∉ pattern.map (·.name) ∧ ¬Generated array where
  host := hσ.host
  memory := hretains.arrays
  keeps _ _ hreads _ _ := hreads.1
  fits := R.sizes

theorem permits_of_retains (R : op.Reduces H pattern Ts n limit) {G : Team} {shared global : Memory} {t i : Nat}
    {reads : Ident → Prop} (hretains : H.memory.Retains reads global) :
    (⟨G.ctx, ⟨shared, global⟩, fun _ p => p.array ∈ pattern.map (·.name), t⟩ : Solo).Permits H.env
    (op.mapped H pattern Ts n i) :=
  fun w hw type shape hshape =>
    ⟨(R.deposits.room i w hw type shape hshape).of_layout (hretains.layout w.slot.array), (mapped_slot hw).2⟩

/-- The threads of a group of the first kernel fold their points. -/
theorem leads_points (R : op.Reduces H pattern Ts n d.loopLimit) (A : op.Affords H d P G n) (henv : setting.env = H.env)
    {m n' : Nat} (hn : m + 4 ≤ n') (hg : g < P) {accs : List Accumulator} {body mapped : Stmt}
    {contributions : List Exp} {fold : List Stmt} (hserves : List.Forall₂ Accumulator.Serves accs Ts)
    (registers : Registers (m + 4) n' (Accumulator.names accs).length (Accumulator.names accs))
    (C : (op.rest (Total.types Ts).length).Compiled setting (pattern.drop (Total.types Ts).length) (n' + 2) body mapped)
    (hfold : Accumulator.foldAll accs contributions setting s = .ok (fold, s')) (hs : n' + 2 ≤ s.names)
    (hcontributions : List.Forall₂ (fun r x => ∃ value, r = BodyResult.returns value ∧ x = value.toExp)
      (op.results.take (Total.types Ts).length) contributions) {shared global : Memory}
    (hretains : H.memory.Retains (fun array => array ∉ pattern.map (·.name) ∧ ¬Generated array) global)
    (text : String) :
    (groupAt H d P A.sized.threads g).LeadsAll (fun _ th => th = {}) ⟨shared, global⟩
      (((Launch.start op.grid.groupCount op.grid.groupWidth).run m).1.2 ::
        Team.foldCode accs (numbered "elems_per_thread" n') (numbered "k" (n' + 1)) text
          ((Exp.product op.space.dimExps).divUp (op.grid.groupCount * op.grid.groupWidth))
          (pointExp Ts ((Launch.start op.grid.groupCount op.grid.groupWidth).run m).1.1 (numbered "elems_per_thread" n')
            (numbered "k" (n' + 1))) (Exp.product op.space.dimExps)
          (.block ([.declareInit op.space.flat .i64
            (pointExp Ts ((Launch.start op.grid.groupCount op.grid.groupWidth).run m).1.1
            (numbered "elems_per_thread" n') (numbered "k" (n' + 1)))] ++
            op.space.indices.map (fun i => Stmt.declareInit i .i64 (.var op.space.flat)) ++ [body, mapped] ++ fold)))
      ((groupAt H d P A.sized.threads g).Knowing fun t =>
        ((groupAt H d P A.sized.threads g).turning H.scope m (numbered "elems_per_thread" n')
          ((n + P * G - 1) / (P * G)) t).withAll
          (Accumulator.names accs) (Total.allOver Ts (share Ts (P * G) n (g * G + t))))
      ((groupAt H d P A.sized.threads g).Apiece fun t =>
        (share Ts (P * G) n (g * G + t)).flatMap (op.mapped H pattern Ts n)) := by
  have E := A.equipped R.wellNamed P g
  have hP : 0 < P * G := Nat.mul_pos A.sized.groups A.sized.threads
  have fits : ∀ i : Nat, i < n + P * G → Fits (i : Int) := fun i hi => by
    have := A.points.1
    unfold Fits at *
    omega
  have hturns : Fits (((n + P * G - 1) / (P * G) : Nat) : Int) := fits _ (by
    have := Nat.div_le_self (n + P * G - 1) (P * G)
    omega)
  -- A thread has its place among all threads, and shares out the points by it.
  have place : ∀ t < G, g * G + t < P * G := fun t ht => by
    have := Nat.mul_le_mul_right G hg
    rw [Nat.succ_mul] at this
    omega
  have numThreads : IsInt H.scope (op.grid.groupCount * op.grid.groupWidth) (P * G : Nat) := by
    have hfits : Fits ((P * G : Nat) : Int) := by
      have := A.points.1
      unfold Fits at *
      omega
    exact_mod_cast A.sized.numGroups.mul A.sized.groupSize (by exact_mod_cast hfits)
  have points : IsInt H.scope (Exp.product op.space.dimExps) n := by
    have := isInt_product (List.forall₂_map_right_iff.mp R.extents) (by simpa using fits n (by omega))
    simpa using this
  have turned := fun t (ht : t < G) j (hj : j < (n + P * G - 1) / (P * G)) =>
    E.turned m n' "elems_per_thread" ht (by decide) hn
    (fits _ (by have := place t ht; show g * G + t < _; omega)) hturns hj
  have point : ∀ t < G, ∀ j < (n + P * G - 1) / (P * G), IsInt
      (((groupAt H d P A.sized.threads g).turning H.scope m (numbered "elems_per_thread" n')
        ((n + P * G - 1) / (P * G)) t).set
        (numbered "k" (n' + 1)) (.i64 (Int64.ofNat j)))
      (pointExp Ts ((Launch.start op.grid.groupCount op.grid.groupWidth).run m).1.1 (numbered "elems_per_thread" n')
        (numbered "k" (n' + 1)))
      ((sharing Ts).point (P * G) ((n + P * G - 1) / (P * G)) (g * G + t) j : Nat) := fun t ht j hj =>
    isInt_pointExp (turned t ht j hj).globalId (numThreads.mono (turned t ht j hj).around.host) (turned t ht j hj).turns
      (turned t ht j hj).turn (fits _ ((sharing Ts).point_lt (place t ht) hj))
  refine Team.leads_fold (sharing Ts) (P * G) (fun t => g * G + t) (op.mapped H pattern Ts n)
    (fun _ p => p.array ∈ pattern.map (·.name)) R.wellNamed rfl (g := g) rfl A.unchecked (by decide)
      hserves R.lawful registers hn
    (points.divUp numThreads hP (by exact_mod_cast A.points.1)) A.points.2 points point
    (fun t ht j hj hin points th Q ws hth hsees hpast hQ => ?_) _ _
  have T := turned t ht j hj
  have unknown : ∀ x ∈ Accumulator.names accs,
    ((groupAt H d P A.sized.threads g).turning H.scope m (numbered "elems_per_thread" n')
      ((n + P * G - 1) / (P * G)) t).set (numbered "k" (n' + 1)) (.i64 (Int64.ofNat j)) x = none := fun x hx => by
    have hne : numbered "k" (n' + 1) ≠ x := fun e => registers.ne_numbered (Nat.le_succ n') (e ▸ hx)
    rw [Scope.set_of_ne hne]
    exact E.unknown ht registers x hx
  exact Solo.ensures_reducedPoint R henv C hfold hs hcontributions hserves (registers.later (by omega))
    rfl T.around unknown
    (sees_of_retains (G := groupAt H d P A.sized.threads g) R T.around hretains)
    (permits_of_retains (G := groupAt H d P A.sized.threads g) R hretains) hpast (point t ht j hj) hin hth hsees
    fun th' hth' hsees' => hQ th' (T.base.trans hth') hsees'

/-- The first kernel of a reduction. -/
theorem reducePoints_stage {partials : List View} (R : op.Reduces H pattern Ts n d.loopLimit) (A : op.Affords H d P G n)
    (hH : H.Complete) (henv : setting.env = H.env) (htuning : s.program.tuning = [])
    (hallocated : ∀ a ∈ s'.program.allocations, a.name ∈ H.memory)
    (hunknown : ∀ x ∈ s'.program.introduced, ¬H.env.Known x)
    (hcontributions : List.Forall₂ (fun r x => ∃ value, r = BodyResult.returns value ∧ x = value.toExp)
      (op.results.take (Total.types Ts).length) parts.contributions)
    (hmapped : parts.mapped = (pattern.drop (Total.types Ts).length).zip (op.results.drop (Total.types Ts).length))
    (hpartials : Partials H Ts P partials)
    (h : reducePoints op (Ts.map (·.combiner)) parts partials setting s = .ok (u, s')) :
    ∃ k, s'.program = { s.program with kernels := s.program.kernels ++ [k] } ∧
      op.Stage H d k P A.sized.threads (fun array => array ∉ pattern.map (·.name) ∧ ¬Generated array) partials id
        (fun g => Total.combined Ts (fun t => share Ts (P * G) n (g * G + t)) (G - 1))
        fun g t => (share Ts (P * G) n (g * G + t)).flatMap (op.mapped H pattern Ts n) := by
  simp only [reducePoints, bind_eq_ok, inRange_eq_ok, lift_eq_ok] at h
  obtain ⟨start, s₁, ⟨rfl, rfl⟩, accs, _, haccs, _, s₂, ⟨-, rfl⟩, perThread, s₃, ⟨rfl, rfl⟩, k, s₄, ⟨rfl, rfl⟩,
    ⟨body, scope⟩, s₅, hbody, mapped, s₆,
    hresults, fold, s₇, hfold, store, s₈, ⟨rfl, rfl⟩, h⟩ := h
  obtain ⟨hserves, hn, registers, hprogram₂⟩ :=
    exists_of_accumulators (fun T hT => (R.lawful T hT).length_neutral) haccs
  obtain ⟨⟨hbodyShared, -⟩, hprogram₅⟩ := makes_threadBody (K := fun _ => False) (fun _ _ _ _ => id) _ _ _ hbody
  obtain ⟨⟨hmappedShared, -⟩, hprogram₆⟩ :=
    makes_threadResults (K := fun _ => False) (fun _ => False.elim) _ _ _ hresults
  obtain ⟨hfoldShared, hs₇, hprogram₇⟩ := sharedArrays_foldAll hfold
  have hs₅ : s₂.names + 2 ≤ s₅.names := names_le_of_threadBody hbody
  have hs₆ := names_le_of_results hresults
  have program : s₇.program = s.program := hprogram₇.trans (hprogram₆.trans (hprogram₅.trans hprogram₂))
  obtain ⟨-, arrays, hlengths, harrays, hshared, hdelivers⟩ := Accumulator.combineAll_delivers
    ((Launch.start op.grid.groupCount op.grid.groupWidth).run s.names).1.1
    ((Launch.start op.grid.groupCount op.grid.groupWidth).run s.names).1.1.gid (n := s₇.names)
      hserves hpartials.types hpartials.global hpartials.apart
  -- From here on only the kernel is left to be described.
  obtain ⟨k, hprogram, hhoist, hnum, hsize, hcaptures⟩ :=
    emitKernel_served hH henv (by rw [program]; exact htuning) hallocated hunknown h
  refine ⟨k, by rw [hprogram, program], {
    codes := ⟨_, _, arrays, hhoist, sharedArrays_foldCode ?_ _ _ _, hshared, hlengths, harrays.nodup, fun g hg =>
      ⟨_, ?_, fun shared global hretains =>
      leads_points R A henv hn hg hserves registers ⟨_, scope, _, s₅, s₆, Nat.le_refl _, hbody, hmapped ▸ hresults⟩
        hfold (by omega) hcontributions hretains _⟩⟩
    numGroups := hnum
    groupSize := hsize
    captures := hcaptures
    global := hpartials.global
    reaches := hpartials.reaches
    unread := fun view hview hreads => hreads.2 (hpartials.generated view hview)
    apart := fun g _ g' hg' e => by
      have : g' = g := e
      omega
    writes := fun g _ t _ w hw => ?_ }⟩
  · rw [Stmt.sharedArrays_block, List.flatMap_eq_nil_iff]
    refine List.forall_mem_append.mpr
      ⟨List.forall_mem_append.mpr ⟨List.forall_mem_append.mpr ⟨List.forall_mem_singleton.mpr rfl,
      fun stmt hstmt => ?_⟩, List.forall_mem_cons.mpr ⟨hbodyShared, List.forall_mem_singleton.mpr hmappedShared⟩⟩,
        hfoldShared⟩
    obtain ⟨x, -, rfl⟩ := List.mem_map.mp hstmt
    rfl
  · have E := A.equipped R.wellNamed P g
    exact E.delivers (by decide) hn registers (by omega) A.sized.groupSize hserves R.lawful hdelivers
      (fun τ hτ => .var_nat (hτ _ _ ((E.oriented op.grid.groupCount op.grid.groupWidth).groupId 0 A.sized.threads)) (by
        have := A.partials.1
        unfold Fits at *
        omega)) fun t => share Ts (P * G) n (g * G + t)
  · obtain ⟨i, -, hw⟩ := List.mem_flatMap.mp hw
    refine ⟨Write.avoids_iff.mpr ⟨(mapped_slot hw).1, fun hmem => ?_⟩, fun hreads => hreads.1 (mapped_slot hw).2⟩
    obtain ⟨view, hview, harray⟩ := List.mem_map.mp hmem
    exact mapped_not_generated R.wellNamed hw (harray ▸ hpartials.generated view hview)

/-! ### The second kernel -/

/-- The launch of the second kernel has one group. -/
def alone (op : SegOp) : SegOp := { op with grid := { op.grid with numGroups := .int 1 } }

theorem Sized.alone (h : op.Sized H P G) : op.alone.Sized H 1 G where
  groups := Nat.one_pos
  threads := h.threads
  numGroups := IsInt.int 1
  groupSize := h.groupSize
  hostGroups := IsInt.int 1
  hostThreads := h.hostThreads

/-- The threads of the second kernel fold what the groups of the first one have stored. -/
theorem leads_partials (A : op.Affords H d P G n) (hop : op.WellNamed H.env) (hlawful : ∀ T ∈ Ts, T.Lawful H.scope)
    {m n' : Nat} (hn : m + 4 ≤ n') {accs : List Accumulator} {partials : List View} {names : List Ident}
    {fold : List Stmt} (hserves : List.Forall₂ Accumulator.Serves accs Ts)
    (registers : Registers (m + 4) n' (Accumulator.names accs).length (Accumulator.names accs))
    (loaded : Registers (n' + 2) s.names partials.length names) (hs : n' + 2 ≤ s.names)
    (hfold : Accumulator.foldAll accs (names.map .var) setting s = .ok (fold, s'))
    (hglobal : ∀ view ∈ partials, view.space = .global)
    (hholds : ∀ g < P, (Store.ofGlobal H.memory).HoldsAll partials g (Total.contributions Ts g))
    {shared global : Memory} (hretains : H.memory.Retains (· ∈ partials.map (·.array)) global) (text : String) :
    (groupAt H d 1 A.sized.threads 0).LeadsAll (fun _ th => th = {}) ⟨shared, global⟩
      (((Launch.start (.int 1) op.grid.groupWidth).run m).1.2 ::
        Team.foldCode accs (numbered "partials_per_thread" n') (numbered "k" (n' + 1)) text
          (op.grid.groupCount.divUp op.grid.groupWidth)
          (((Launch.start (.int 1) op.grid.groupWidth).run m).1.1.ltid * .var (numbered "partials_per_thread" n') +
            .var (numbered "k" (n' + 1)))
          op.grid.groupCount
          (.block ((partials.zip names).flatMap (fun p => [Stmt.declare p.2 p.1.type false, .read p.2 p.1
            (((Launch.start (.int 1) op.grid.groupWidth).run m).1.1.ltid * .var (numbered "partials_per_thread" n') +
              .var (numbered "k" (n' + 1)))]) ++ fold)))
      ((groupAt H d 1 A.sized.threads 0).Knowing fun t =>
        ((groupAt H d 1 A.sized.threads 0).turning H.scope m (numbered "partials_per_thread" n') ((P + G - 1) / G)
          t).withAll
          (Accumulator.names accs) (Total.allOver Ts (Sharing.contiguous.share G ((P + G - 1) / G) P t)))
      ((groupAt H d 1 A.sized.threads 0).Apiece fun t =>
        (Sharing.contiguous.share G ((P + G - 1) / G) P t).flatMap fun _ => []) := by
  have E := A.equipped hop 1 0
  have fits : ∀ i : Nat, i < P + G → Fits (i : Int) := fun i hi => by
    have := A.partials.1
    unfold Fits at *
    omega
  have hG := A.sized.threads
  have hturns : Fits (((P + G - 1) / G : Nat) : Int) := fits _ (by
    have := Nat.div_le_self (P + G - 1) G
    omega)
  have turned := fun t (ht : t < G) j (hj : j < (P + G - 1) / G) =>
    E.turned m n' "partials_per_thread" ht (by decide) hn
    (fits _ (by show 0 * G + t < _; omega)) hturns hj
  have point := fun t (ht : t < G) j (hj : j < (P + G - 1) / G) => Sharing.isInt_contiguous G (turned t ht j hj).localId
    (turned t ht j hj).turns (turned t ht j hj).turn (fits _ (Sharing.contiguous.point_lt ht hj))
  refine Team.leads_fold .contiguous G id (fun _ => []) (fun _ _ => False) hop rfl (g := 0)
    rfl A.unchecked (by decide) hserves hlawful registers hn
    (A.sized.numGroups.divUp A.sized.groupSize hG (by exact_mod_cast A.partials.1)) A.partials.2 A.sized.numGroups point
    (fun t ht j hj hin points th Q ws hth hsees hpast hQ => ?_) _ _
  have T := turned t ht j hj
  obtain rfl : ws = [] := List.eq_nil_iff_forall_not_mem.mpr fun w hw => by simpa using hpast w hw
  -- The names that a turn takes are new, and so no accumulator has one of them.
  have unknown : ∀ x ∈ Accumulator.names accs,
    ((groupAt H d 1 A.sized.threads 0).turning H.scope m (numbered "partials_per_thread" n')
      ((P + G - 1) / G) t).set (numbered "k" (n' + 1)) (.i64 (Int64.ofNat j)) x = none := fun x hx => by
    have hne : numbered "k" (n' + 1) ≠ x := fun e => registers.ne_numbered (Nat.le_succ n') (e ▸ hx)
    rw [Scope.set_of_ne hne]
    exact E.unknown ht registers x hx
  have holds : Store.HoldsAll ⟨shared, global⟩ partials (Sharing.contiguous.point G ((P + G - 1) / G) t j)
      (Total.contributions Ts (Sharing.contiguous.point G ((P + G - 1) / G) t j)) := by
    refine (hholds _ hin).of_views (fun view hview => ?_) fun p hp => ?_
    · rw [hglobal view hview]
      exact hretains.layout view.array
    · obtain ⟨view, hview, rfl⟩ := hp
      simp only [Store.bits?, hglobal view hview]
      exact congrArg (Option.bind · _) (hretains.arrays view.array (List.mem_map_of_mem hview))
  exact Solo.ensures_partial (m := n' + 2) hfold hs hserves (fun T' hT' => (hlawful T' hT').mono T.around.host)
    (registers.later (by omega))
    (Nat.le_refl _) (fun x hx => (Solo.accumulators_known registers hop rfl x hx).2.2) (loaded.length.symm ▸ loaded)
      T.around.before
    unknown loaded.length (point t ht j hj) holds (fun _ _ _ _ => id) hth hsees fun th' hth' hsees' =>
      hQ th' (T.base.trans hth') hsees'

/-- The second kernel of a reduction. -/
theorem reducePartials_stage {partials dests : List View} (A : op.Affords H d P G n) (hop : op.WellNamed H.env)
    (hlawful : ∀ T ∈ Ts, T.Lawful H.scope) (hH : H.Complete) (henv : setting.env = H.env)
    (htuning : s.program.tuning = []) (hallocated : ∀ a ∈ s'.program.allocations, a.name ∈ H.memory)
    (hunknown : ∀ x ∈ s'.program.introduced, ¬H.env.Known x) (hpartials : Partials H Ts P partials)
    (hholds : ∀ g < P, (Store.ofGlobal H.memory).HoldsAll partials g (Total.contributions Ts g))
    (htypes : dests.map (·.type) = Total.types Ts) (hglobal : ∀ dest ∈ dests, dest.space = .global)
    (happart : ViewsApart dests) (hreaches : ∀ dest ∈ dests, (Store.ofGlobal H.memory).Reaches dest 0)
    (hunread : ∀ dest ∈ dests, dest.array ∉ partials.map (·.array))
    (h : reducePartials op (Ts.map (·.combiner)) partials dests setting s = .ok (u, s')) :
    ∃ k, s'.program = { s.program with kernels := s.program.kernels ++ [k] } ∧
      op.alone.Stage H d k 1 A.sized.threads (· ∈ partials.map (·.array)) dests (fun _ => 0)
        (fun _ => Total.combined Ts (Sharing.contiguous.share G ((P + G - 1) / G) P) (G - 1))
        fun _ t => (Sharing.contiguous.share G ((P + G - 1) / G) P t).flatMap fun _ => [] := by
  simp only [reducePartials, bind_eq_ok, lift_eq_ok] at h
  obtain ⟨start, s₁, ⟨rfl, rfl⟩, accs, s₂, haccs, perThread, s₃, ⟨rfl, rfl⟩, k, s₄, ⟨rfl, rfl⟩, names, s₅, ⟨rfl, rfl⟩,
    fold, s₇, hfold,
    store, s₈, ⟨rfl, rfl⟩, h⟩ := h
  obtain ⟨hserves, hn, registers, hprogram₂⟩ := exists_of_accumulators (fun T hT => (hlawful T hT).length_neutral) haccs
  obtain ⟨hfoldShared, hs₇, hprogram₇⟩ := sharedArrays_foldAll hfold
  obtain ⟨hs₅, loaded⟩ := Fresh.At.registers (n := s₂.names + 2) (show "partial" ∈ _ by decide) partials
  have hs₇' : s₂.names + 1 ≤ s₇.names := (Nat.le_succ _).trans (hs₅.trans hs₇)
  have program : s₇.program = s.program := hprogram₇.trans hprogram₂
  obtain ⟨-, arrays, hlengths, harrays, hshared, hdelivers⟩ := Accumulator.combineAll_delivers
    ((Launch.start (.int 1) op.grid.groupWidth).run s.names).1.1 (.int 0) (n := s₇.names) hserves htypes hglobal happart
  obtain ⟨k, hprogram, hhoist, hnum, hsize, hcaptures⟩ :=
    emitKernel_served hH henv (by rw [program]; exact htuning) hallocated hunknown h
  refine ⟨k, by rw [hprogram, program], {
    codes := ⟨_, _, arrays, hhoist, sharedArrays_foldCode ?_ _ _ _, hshared, hlengths, harrays.nodup, fun g hg => ?_⟩
    numGroups := hnum
    groupSize := hsize
    captures := hcaptures
    global := hglobal
    reaches := fun _ _ => hreaches
    unread := hunread
    apart := fun g hg g' hg' _ => by omega
    writes := fun g _ t _ w hw => by simp at hw }⟩
  · rw [Stmt.sharedArrays_block, List.flatMap_append, List.flatMap_eq_nil_iff.mpr hfoldShared, List.append_nil,
      List.flatMap_assoc]
    exact List.flatMap_eq_nil_iff.mpr fun _ _ => rfl
  · obtain rfl : g = 0 := by omega
    have E := A.equipped hop 1 0
    exact ⟨_, E.delivers (by decide) hn registers hs₇' A.sized.groupSize hserves hlawful hdelivers
      (fun _ _ => IsInt.int 0) _,
      fun shared global hretains => leads_partials A hop hlawful hn hserves registers loaded hs₅ hfold hpartials.global
        hholds hretains _⟩

end Segmented
end SegKernel
