import Mathlib.Algebra.Order.Ring.Nat
import Mathlib.Tactic.GRewrite
import SegKernel.Atomic.Update
import SegKernel.Collective.Reduction
import SegKernel.Collective.Scan
import SegKernel.Proofs.Introductions.Tallies
import SegKernel.Proofs.Names.Scope

/-! What nests, collectives and atomic updates declare: the names that they take, and the names of the
    space that they cover. -/

namespace SegKernel
open Tally Fresh
variable {t : Tally}

/-! ### Launches -/

namespace Tally

theorem ofAll_innerIndices (flat : Exp) : ∀ dims : List (Ident × Exp),
    t.ofAll (Stmt.innerIndices flat dims) = t.sum (dims.map (·.1))
  | [] => rfl
  | d :: dims => by
    rw [Stmt.innerIndices, ofAll_cons, of_declareInit, ofAll_innerIndices flat dims, List.map_cons, sum_cons]

theorem of_unflatten (dims : List (Ident × Exp)) (flat : Exp) :
    t.of (.unflatten dims flat) = t.sum (dims.map (·.1)) := by
  unfold Stmt.unflatten
  split
  · rfl
  · rw [of_block, ofAll_cons, of_declareInit, ofAll_innerIndices, List.map_cons, sum_cons]

theorem of_unflatten_extents (s : IterationSpace) (flat : Exp) :
    t.of (.unflatten s.extents flat) = t.sum s.indices := by
  rw [of_unflatten, IterationSpace.extents, List.map_map]
  rfl

theorem sum_space_names (s : IterationSpace) : t.sum s.names = t.weight s.flat + t.sum s.indices := sum_cons

end Tally

namespace Launch

theorem start_costs (numGroups groupSize : Exp) : Costs t (start numGroups groupSize) 0 fun r => t.of r.2 := by
  refine (Costs.fresh (by decide)).bind fun globalId => (Costs.fresh (by decide)).bind fun localId => ?_
  refine (Costs.fresh (by decide)).bind fun groupId => (Costs.fresh (by decide)).bind fun waveWidth => .pure ?_
  simp only [of_comment, of_block, ofAll_cons, ofAll_nil, of_ask]
  omega

theorem forElements_costs (sizes : SizeClasses) (kernel : String) (n : Exp) :
    Costs t (forElements sizes kernel n) 0 fun r => t.of r.2.1 := by
  exact (start_costs _ _).bind fun r => .pure (Nat.le_of_eq (Nat.zero_add _).symm)

theorem precomputeStep_costs (env : HostEnv) (found : Launch × List Stmt) (stm : BodyStm) :
    Costs t (precomputeStep env found stm) (t.ofAll found.2) fun r => t.ofAll r.2 := by
  obtain ⟨launch, code⟩ := found
  cases stm with
  | nested pattern op =>
    unfold precomputeStep
    dsimp only
    split
    · exact .pure (Nat.le_refl _)
    split
    · split
      · exact .pure (Nat.le_refl _)
      · refine (Costs.fresh (by decide)).bind fun count => .pure ?_
        simp only [ofAll_append, ofAll_cons, ofAll_nil, of_declareInit]
        omega
    · split
      · exact .pure (Nat.le_refl _)
      · refine (Costs.freshFor (by decide) _).bind fun ids => .pure ?_
        have := sum_map_fst_zip_le (t := t) ids (op.space.shape.map Operand.toExp)
        simp only [ofAll_append, ofAll_cons, ofAll_nil, of_unflatten]
        omega
  | _ => exact .pure (Nat.le_refl _)

theorem precompute_costs (env : HostEnv) (launch : Launch) (stms : List BodyStm) :
    Costs t (precompute env launch stms) 0 fun r => t.of r.2 := by
  refine (Costs.foldlM (c := fun r : Launch × List Stmt => t.ofAll r.2)
    (b := ({ launch with pointIds := [], chunkCounts := [] }, [])) fun stm _ found =>
      precomputeStep_costs env found stm).bind fun r => .pure ?_
  split
  · exact Nat.zero_le _
  · rw [of_comment, of_block]
    omega

theorem coverGroups_costs (l : Launch) (coverage : Coverage) (required : Exp) :
    Costs t (l.coverGroups coverage required) 0 fun r => t.ofNest r.2 := by
  have visits : Costs t (do
      let physical ← fresh "phys_group_id"
      let iterations ← fresh "iterations"
      let i ← fresh "i"
      let logical ← fresh "virt_group_id"
      return (Exp.var logical, ({
        setup := [ask .groupId physical,
          .declareInit iterations .i64 ((required - .var physical).divUp l.numGroups)]
        counted := some (i, .var iterations)
        before := [.declareInit logical .i64 (.var physical + .var i * l.numGroups)]
        after := [.barrier .global] } : Nest))) 0 fun r => t.ofNest r.2 := by
    refine (Costs.fresh (by decide)).bind fun physical => (Costs.fresh (by decide)).bind fun iterations => ?_
    refine (Costs.fresh (by decide)).bind fun i => (Costs.fresh (by decide)).bind fun logical => .pure ?_
    simp only [ofNest, ofAll_cons, ofAll_nil, of_ask, of_declareInit, of_barrier, Option.toList_some, List.map_cons,
      List.map_nil, sum_cons, sum_nil]
    omega
  cases coverage with
  | direct => exact .pure (Nat.le_refl _)
  | virtualize => exact visits
  | full => exact visits

theorem coverNumbers_costs (l : Launch) (n : Exp) : Costs t (l.coverNumbers n) 0 fun r => t.ofNest r.2 := by
  unfold coverNumbers
  split
  · exact .pure (Nat.le_refl _)
  · refine (Costs.fresh (by decide)).bind fun chunks => (Costs.fresh (by decide)).bind fun chunk => ?_
    refine (Costs.fresh (by decide)).bind fun i => .pure ?_
    simp only [ofNest, ofAll_cons, ofAll_nil, of_declareInit, Option.toList_some, List.map_cons, List.map_nil, sum_cons,
      sum_nil]
    omega

theorem coverChunks_costs (l : Launch) (w : Exp) : Costs t (l.coverChunks w) 0 fun r => t.ofNest r.2.2 := by
  refine (Costs.fresh (by decide)).bind fun chunks => (Costs.fresh (by decide)).bind fun chunk => ?_
  refine (Costs.fresh (by decide)).bind fun start => (Costs.fresh (by decide)).bind fun size => .pure ?_
  simp only [ofNest, ofAll_cons, ofAll_nil, of_declareInit, Option.toList_some, List.map_cons, List.map_nil, sum_cons,
    sum_nil]
  omega

theorem coverSpace_costs (l : Launch) (coverage : Coverage) (s : IterationSpace) :
    Costs t (l.coverSpace coverage s) (t.sum s.names) t.ofNest := by
  have names := sum_space_names (t := t) s
  unfold coverSpace
  dsimp only
  split
  · refine (Costs.fresh (by decide)).bind fun chunk => (Costs.fresh (by decide)).bind fun i => ?_
    -- With or without a precomputed number of rounds, what follows the setup is the same.
    have rest : ∀ r : List Stmt × Exp, Costs t (pure {
        setup := r.1
        counted := some (chunk, r.2)
        before := [.declareInit i .i64 (.var chunk * l.groupSize + l.ltid), .declareInit s.flat .i64 (.var i),
          .unflatten s.extents (.var i)]
        guard := s.isInside }) (t.sum s.names + t.weight chunk + t.weight i + t.ofAll r.1) t.ofNest := by
      intro r
      refine .pure ?_
      simp only [ofNest, ofAll_cons, ofAll_nil, of_declareInit, of_unflatten_extents, Option.toList_some, List.map_cons,
        List.map_nil, sum_cons, sum_nil]
      omega
    split
    · exact Costs.bind (c := fun r => t.ofAll r.1) (.pure (Nat.le_refl _)) rest
    · refine (Costs.fresh (by decide)).bind fun count => ?_
      refine Costs.bindWith (c := fun r => t.ofAll r.1) _ (.pure ?_) rest (Nat.le_refl _)
      simp only [ofAll_cons, ofAll_nil, of_declareInit]
      omega
  · refine .pure ?_
    simp only [ofNest, ofAll_cons, ofAll_nil, of_declareInit, of_unflatten_extents, Option.toList_none,
      List.map_nil, sum_nil]
    omega
  · refine .pure ?_
    simp only [ofNest, ofAll_cons, ofAll_nil, of_declareInit, Option.toList_none, List.map_nil, sum_nil]
    split
    · rename_i ids _
      have declared := ofAll_map_le (f := fun p => .declareInit p.1 .i64 p.2) (·.1) (s.indices.zip ids) fun p _ =>
        Nat.le_of_eq (of_declareInit (t := t))
      have fewer := sum_map_fst_zip_le (t := t) s.indices ids
      rw [of_block]
      omega
    · rw [of_unflatten_extents]
      omega

theorem ofNest_atPoint (nest : Nest) (coverage : Coverage) (s : IterationSpace) (flat : Exp) :
    t.ofNest (atPoint nest coverage s flat) = t.ofNest nest + t.sum s.names := by
  have names := sum_space_names (t := t) s
  simp only [ofNest, atPoint, ofAll_append, ofAll_cons, ofAll_nil, of_declareInit, of_unflatten_extents]
  omega

theorem coverByThreads_costs (l : Launch) (coverage : Coverage) (s : IterationSpace) :
    Costs t (l.coverByThreads coverage s) (t.sum s.names) t.ofNest :=
  (coverGroups_costs l _ _).bind fun r => .pure (Nat.le_of_eq ((ofNest_atPoint r.2 _ s _).trans (Nat.add_comm _ _)))

theorem coverByGroups_costs (l : Launch) (coverage : Coverage) (s : IterationSpace) :
    Costs t (l.coverByGroups coverage s) (t.sum s.names) t.ofNest :=
  (coverGroups_costs l _ _).bind fun r => .pure (Nat.le_of_eq ((ofNest_atPoint r.2 _ s _).trans (Nat.add_comm _ _)))

end Launch

/-! ### Collectives -/

theorem Layout.eachLane_costs (layout : Layout) {body : Exp → Fresh Stmt} (h : ∀ lane, Costs t (body lane) 0 t.of) :
    Costs t (layout.eachLane body) 0 t.of := by
  cases layout with
  | shared base => exact h _
  | rows lanes regionLength =>
    refine (Costs.fresh (by decide)).bind fun j => (h _).bind fun code => .pure ?_
    rw [of_loop]
    omega

theorem Tally.ofAll_load (v : View) (dest : Ident) (type : ScalarType) (index : Exp) :
    t.ofAll (v.load dest type index) = t.weight dest := by
  simp [View.load]

namespace Collective
variable (c : Collective)

theorem loadOperands_costs (volatile : Bool) (left right : Cell) (lane : Exp) (view : View) (param : Param) :
    Costs t (c.loadOperands volatile left right lane view param) 0 fun r => t.ofAll r.2.2 := by
  refine (Costs.fresh (by decide)).bind fun x => (Costs.fresh (by decide)).bind fun y => .pure ?_
  rw [ofAll_append, ofAll_load, ofAll_load]
  omega

theorem combineLane_costs (dest left right : Cell) (keepRight : Option Exp) (volatile : Bool) (lane : Exp) :
    Costs t (c.combineLane dest left right keepRight volatile lane) 0 t.of := by
  refine (Costs.mapM fun p _ => loadOperands_costs c volatile left right lane p.1 p.2).bind fun loads => .pure ?_
  rw [of_block, ofAll_append, ofAll_flatMap, ofAll_eq_zero]
  · omega
  · intro s hs
    obtain ⟨p, -, rfl⟩ := List.mem_map.mp hs
    rfl

theorem combine_costs (dest left right : Cell) (keepRight : Option Exp) (volatile : Bool) :
    Costs t (c.combine dest left right keepRight volatile) 0 t.of :=
  c.layout.eachLane_costs fun _ => combineLane_costs c dest left right keepRight volatile _

theorem copyLane_costs (dest source : Cell) (lane : Exp) : Costs t (c.copyLane dest source lane) 0 t.of := by
  refine (Costs.mapM (c := t.ofAll) fun p _ => ?_).bind fun code => .pure ?_
  · refine (Costs.fresh (by decide)).bind fun v => .pure ?_
    rw [ofAll_append, ofAll_load, ofAll_cons, of_write]
    simp
  · rw [of_block, ofAll_flatten]
    omega

theorem copy_costs (dest source : Cell) : Costs t (c.copy dest source) 0 t.of :=
  c.layout.eachLane_costs fun _ => copyLane_costs c dest source _

/-! ### Reductions -/

theorem reduce_costs (w : Exp) : Costs t (c.reduce w) 0 t.of := by
  refine (Costs.fresh (by decide)).bind fun wave => (Costs.fresh (by decide)).bind fun waveId => ?_
  refine (Costs.fresh (by decide)).bind fun inWaveId => (Costs.fresh (by decide)).bind fun numWaves => ?_
  refine (Costs.fresh (by decide)).bind fun offset => (Costs.fresh (by decide)).bind fun skipWaves => ?_
  refine (combine_costs c _ _ _ _ _).bind fun inWaveStep =>
    (combine_costs c _ _ _ _ _).bind fun crossWaveStep => .pure ?_
  simp only [of_comment, of_block, ofAll_cons, ofAll_nil, of_declareInit, of_repeatWhile, of_barrier, of_set]
  grind [of_when_le]

theorem reduceChunks_costs (launch : Launch) (lambda : Lambda) (views : List View) (w : Exp) :
    Costs t (reduceChunks launch lambda views w) 0 t.of := by
  refine (launch.coverChunks_costs w).bind fun r => (combine_costs _ _ _ _ _ _).bind fun carryIn => ?_
  refine (reduce_costs _ _).bind fun reduction => (copy_costs _ _ _).bind fun carryOut => .pure ?_
  refine Nat.le_trans (of_wrap_le _ _) ?_
  simp only [of_comment, of_block, ofAll_cons, ofAll_nil, of_barrier]
  grind [of_when_le]

end Collective

/-! ### Scans -/

theorem Lambda.assign_costs (l : Lambda) (xs ys : List Exp) (dests : List Ident) :
    Costs t (l.assign xs ys dests) 0 t.of := by
  unfold Lambda.assign
  dsimp only
  split
  · exact .pure (Nat.le_of_eq (of_block.trans (ofAll_map_eq_zero fun _ => of_set)))
  · refine (Costs.freshFor (by decide) _).bind fun temps => .pure ?_
    rw [of_block, ofAll_append, ofAll_map_eq_zero fun _ => of_set, Nat.add_zero, Nat.zero_add]
    exact Nat.le_trans (ofAll_map_le (·.1.1) _ fun _ _ => Nat.le_of_eq of_declareInit) (sum_map_fst_zip_zip_le _ _ _)

namespace Tally

theorem of_declareAll_le (names : List Ident) (types : List ScalarType) :
    t.of (declareAll names types) ≤ t.sum names := by
  rw [declareAll, of_block]
  exact Nat.le_trans (ofAll_map_le (·.1) _ fun _ _ => Nat.le_of_eq of_declare) (sum_map_fst_zip_le _ _)

theorem of_setAll (dests sources : List Ident) : t.of (setAll dests sources) = 0 := by
  rw [setAll, of_block, ofAll_map_eq_zero fun _ => of_set]

theorem of_readAll (views : List View) (dests : List Ident) (index : Exp) : t.of (readAll views dests index) = 0 := by
  rw [readAll, of_block, ofAll_map_eq_zero fun _ => of_read]

theorem of_writeAll (views : List View) (sources : List Ident) (index : Exp) :
    t.of (writeAll views sources index) = 0 := by
  rw [writeAll, of_block, ofAll_map_eq_zero fun _ => of_write]

end Tally

theorem BlockIds.declare_costs (l : Launch) (w : Exp) : Costs t (declare l w) 0 fun r => t.of r.2 := by
  refine (Costs.fresh (by decide)).bind fun block => (Costs.fresh (by decide)).bind fun inBlock => ?_
  refine (Costs.fresh (by decide)).bind fun inBounds => .pure ?_
  simp only [of_block, ofAll_cons, ofAll_nil, of_declareInit]
  omega

namespace Collective
variable (c : Collective)

theorem scanBlocks_costs (test : Option SegmentTest) (base : Exp) (ids : BlockIds) (active : Exp) :
    Costs t (c.scanBlocks test base ids active) 0 fun r => t.of r.1 := by
  refine (Costs.freshFor (by decide) _).bind fun xs => (Costs.freshFor (by decide) _).bind fun ys => ?_
  refine (Costs.fresh (by decide)).bind fun skip => (Costs.fresh (by decide)).bind fun inactive => ?_
  refine (c.lambda.assign_costs _ _ _).bind fun apply => .pure ?_
  have hx := of_declareAll_le (t := t) xs c.lambda.resultTypes
  have hy := of_declareAll_le (t := t) ys c.lambda.resultTypes
  have guarded := fun e => of_when_le (t := t) e apply
  cases test with
  | none =>
    simp only [of_comment, of_block, ofAll_cons, ofAll_nil, of_declare, of_repeatWhile, of_barrier, of_set,
      of_when_of_zero,
      of_setAll, of_readAll, of_writeAll]
    grind
  | some test =>
    simp only [of_comment, of_block, ofAll_cons, ofAll_nil, of_declare, of_repeatWhile, of_barrier, of_set,
      of_when_of_zero,
      of_setAll, of_readAll, of_writeAll]
    grind

theorem scanScalars_costs (test : Option SegmentTest) (base w : Exp) : Costs t (c.scanScalars test base w) 0 t.of := by
  refine (BlockIds.declare_costs _ _).bind fun ids => (scanBlocks_costs c _ _ _ _).bind fun blockScan => ?_
  refine (scanBlocks_costs c _ _ _ _).bind fun carryScan => (Costs.freshFor (by decide) _).bind fun own => ?_
  refine (Costs.fresh (by decide)).bind fun noCarryIn => (c.lambda.assign_costs _ _ _).bind fun apply => ?_
  have hown := of_declareAll_le (t := t) own c.lambda.resultTypes
  cases test with
  | none =>
    dsimp only
    rw [pure_bind]
    refine .pure ?_
    simp only [of_comment, of_block, ofAll_cons, ofAll_nil, of_declareInit, of_barrier, of_when_of_zero, of_setAll,
      of_readAll, of_writeAll]
    grind [of_when_le]
  | some test =>
    refine (Costs.fresh (by decide)).bind fun inactive => ?_
    rw [pure_bind]
    refine .pure ?_
    simp only [of_comment, of_block, ofAll_cons, ofAll_nil, of_declareInit, of_barrier, of_when_of_zero, of_setAll,
      of_readAll, of_writeAll]
    grind [of_when_le]

theorem scanRowBlocks_costs (test : Option SegmentTest) (ids : BlockIds) (active : Exp) :
    Costs t (c.scanRowBlocks test ids active) 0 t.of := by
  refine (Costs.fresh (by decide)).bind fun skip => (combine_costs c _ _ _ _ _).bind fun step => ?_
  refine (copy_costs c _ _).bind fun commit => .pure ?_
  simp only [of_block, ofAll_cons, ofAll_nil, of_declareInit, of_repeatWhile, of_barrier, of_set]
  grind [of_when_le]

theorem scanRows_costs (test : Option SegmentTest) (w : Exp) : Costs t (c.scanRows test w) 0 t.of := by
  refine (BlockIds.declare_costs _ _).bind fun ids => (scanRowBlocks_costs c _ _ _).bind fun blockScan => ?_
  refine (copy_costs c _ _).bind fun save => (copy_costs c _ _).bind fun publish => ?_
  refine (copy_costs c _ _).bind fun gather => (scanRowBlocks_costs c _ _ _).bind fun carryScan => ?_
  refine (combine_costs c _ _ _ _ _).bind fun carryIn => (copy_costs c _ _).bind fun restore => .pure ?_
  simp only [of_comment, of_block, ofAll_cons, ofAll_nil, of_barrier]
  grind [of_when_le]

theorem scan_costs (test : Option SegmentTest) (w : Exp) : Costs t (c.scan test w) 0 t.of := by
  have rest : ∀ code, Costs t (pure (Stmt.comment "group scan" code)) (0 + t.of code) t.of := fun code =>
    .pure (Nat.le_of_eq (of_comment.trans (Nat.zero_add _).symm))
  unfold scan
  dsimp only
  split
  · exact (scanScalars_costs c _ _ _).bind rest
  · exact (scanRows_costs c _ _).bind rest

theorem scanChunks_costs (launch : Launch) (lambda : Lambda) (views : List View) (test : Option SegmentTest) (w : Exp) :
    Costs t (scanChunks launch lambda views test w) 0 t.of := by
  refine (launch.coverChunks_costs w).bind fun r => (combine_costs _ _ _ _ _ _).bind fun carryIn => ?_
  refine (scan_costs _ _ _).bind fun scan => .pure ?_
  refine Nat.le_trans (of_wrap_le _ _) ?_
  simp only [of_comment, of_block, ofAll_cons, ofAll_nil, of_barrier]
  grind [of_when_le]

end Collective

/-! ### Atomic updates -/

theorem swapLoop_costs (dest : View) (index : Exp) (assumed : Ident) (candidate : Exp) :
    Costs t (swapLoop dest index assumed candidate) (t.weight assumed) t.of := by
  refine (Costs.fresh (by decide)).bind fun old => (Costs.fresh (by decide)).bind fun oldBits => ?_
  refine (Costs.fresh (by decide)).bind fun runLoop => .pure ?_
  simp only [of_block, ofAll_cons, ofAll_nil, of_declare, of_declareInit, of_read, of_set, of_compareSwap,
    of_repeatWhile,
    of_when_of_zero]
  omega

theorem lockedUpdate_costs (locking : Locking) (lambda : Lambda) (dests : List View) (index : Exp) (values : List Exp) :
    Costs t (lockedUpdate locking lambda dests index values) 0 t.of := by
  refine (Costs.fresh (by decide)).bind fun continues => (Costs.fresh (by decide)).bind fun old => ?_
  refine (Costs.fresh (by decide)).bind fun released => (Costs.freshFor (by decide) _).bind fun accs => .pure ?_
  simp only [of_block, ofAll_cons, ofAll_nil, of_declare, of_declareInit, of_compareSwap, of_repeatWhile, of_memFence]
  grw [of_when_le]
  simp only [of_block, of_comment, ofAll_cons, ofAll_nil, of_declare, of_set, of_compareSwap, of_memFence,
    ofAll_map_eq_zero fun _ => of_write]
  grw [ofAll_flatMap_le (·.2) _ fun _ _ => by simp, sum_map_snd_zip_le]
  omega

theorem ComponentUpdate.code_costs (dest : View) (index value : Exp) (u : ComponentUpdate) :
    Costs t (u.code dest index value) 0 t.of := by
  cases u with
  | native op =>
    refine (Costs.fresh (by decide)).bind fun old => .pure ?_
    simp only [of_block, ofAll_cons, ofAll_nil, of_declare, of_update]
    omega
  | swap op =>
    refine (Costs.fresh (by decide)).bind fun assumed => ?_
    rw [Nat.zero_add]
    exact swapLoop_costs _ _ _ _

/-- The same for a computation that may fail; without a result nothing counts. -/
def Fresh.CostsUnlessFailed {α : Type} (t : Tally) (f : ExceptT LowerError Fresh α) (given : Nat) (cost : α → Nat) :
    Prop :=
  Costs t f.run given fun r => r.toOption.elim 0 cost

namespace Fresh.CostsUnlessFailed
variable {α β : Type} {given given' : Nat} {c : α → Nat} {d : β → Nat}

theorem pure {a : α} (h : c a ≤ given) : CostsUnlessFailed t (Pure.pure a) given c := Costs.pure h

theorem throw {e : LowerError} : CostsUnlessFailed t (throw e : ExceptT LowerError Fresh α) given c :=
  Costs.pure (Nat.zero_le _)

theorem bindWith {f : ExceptT LowerError Fresh α} {g : α → ExceptT LowerError Fresh β} (kept : Nat)
    (hf : CostsUnlessFailed t f given c) (hg : ∀ a, CostsUnlessFailed t (g a) (kept + c a) d)
    (hle : kept + given ≤ given') : CostsUnlessFailed t (f >>= g) given' d := by
  unfold CostsUnlessFailed
  rw [ExceptT.run_bind]
  refine Costs.bindWith kept hf (fun r => ?_) hle
  cases r with
  | ok a => exact hg a
  | error e => exact Costs.pure (Nat.zero_le _)

theorem bind {f : ExceptT LowerError Fresh α} {g : α → ExceptT LowerError Fresh β} (hf : CostsUnlessFailed t f 0 c)
    (hg : ∀ a, CostsUnlessFailed t (g a) (given + c a) d) : CostsUnlessFailed t (f >>= g) given d :=
  bindWith given hf hg (Nat.le_refl _)

theorem lift {f : Fresh α} (h : Costs t f given c) : CostsUnlessFailed t (liftM f) given c :=
  Costs.bindWith 0 h (fun _ => Costs.pure (Nat.le_of_eq (Nat.zero_add _).symm)) (Nat.le_of_eq (Nat.zero_add _))

theorem mapM {g : α → ExceptT LowerError Fresh β} : ∀ {as : List α}, (∀ a ∈ as, CostsUnlessFailed t (g a) 0 d) →
    CostsUnlessFailed t (as.mapM g) 0 fun bs => (bs.map d).sum
  | [], _ => by
    rw [List.mapM_nil]
    exact pure (Nat.le_refl _)
  | a :: as, h => by
    rw [List.mapM_cons]
    refine (h a List.mem_cons_self).bind fun b => (mapM fun a' ha' => h a' (List.mem_cons_of_mem a ha')).bind fun bs =>
      pure ?_
    rw [List.map_cons, List.sum_cons]
    omega

end Fresh.CostsUnlessFailed

theorem AtomicUpdate.code_costs (update : AtomicUpdate) (lambda : Lambda) (locking : Option Locking) (dests : List View)
    (index : Exp) (values : List Exp) :
    CostsUnlessFailed t (update.code lambda locking dests index values) 0 t.of := by
  unfold code
  split
  · exact .throw
  refine CostsUnlessFailed.bind (c := t.of) ?_ fun code => .pure (Nat.le_of_eq (of_comment.trans (Nat.zero_add _).symm))
  unfold body
  split
  · refine (CostsUnlessFailed.mapM (d := t.of) fun p _ => .lift (ComponentUpdate.code_costs _ _ _ _)).bind fun code =>
      .pure ?_
    rw [of_block, Nat.zero_add]
    exact Nat.le_refl _
  · refine (CostsUnlessFailed.lift (Costs.fresh (by decide))).bind fun assumed => ?_
    rw [Nat.zero_add]
    split
    · exact .lift (swapLoop_costs _ _ _ _)
    · exact .throw
  · split
    · exact .lift (lockedUpdate_costs _ _ _ _ _)
    · exact .throw

end SegKernel
