import SegKernel.Collective.Reduction
import SegKernel.Proofs.Execution.Composing
import SegKernel.Proofs.Execution.Lockstep
import SegKernel.Proofs.Names.Declared

/-! The arrays that code stores to. What code writes goes through the views that stand in it. -/

namespace SegKernel

/-! ### Code that stores through some views -/

/-- Code that shares no array, and stores only through views of which `S` holds. -/
structure Stmt.Targets (S : View → Prop) (s : Stmt) : Prop where
  shared : s.sharedArrays = []
  stores : ∀ view ∈ s.stores, S view

namespace Stmt
variable {S S' : View → Prop} {s : Stmt} {stmts : List Stmt}

theorem storesAll_eq : storesAll stmts = stmts.flatMap stores := by
  induction stmts with
  | nil => rfl
  | cons s ss ih => rw [storesAll, List.flatMap_cons, ih]

theorem stores_block : (block stmts).stores = stmts.flatMap stores := collect_block rfl fun _ => storesAll_eq

namespace Targets

theorem block (h : ∀ s ∈ stmts, s.Targets S) : (Stmt.block stmts).Targets S := by
  refine ⟨?_, fun view hview => ?_⟩
  · rw [sharedArrays_block, List.flatMap_eq_nil_iff]
    exact fun s hs => (h s hs).shared
  · rw [stores_block] at hview
    obtain ⟨s, hs, hview⟩ := List.mem_flatMap.mp hview
    exact (h s hs).stores view hview

theorem of_nil (hshared : s.sharedArrays = []) (hstores : s.stores = []) : s.Targets S :=
  ⟨hshared, fun view hview => by simp [hstores] at hview⟩

theorem write {view : View} {index x : Exp} (h : S view) : (Stmt.write view index x).Targets S :=
  ⟨rfl, fun _ hview => List.mem_singleton.mp hview ▸ h⟩

theorem comment {text : String} (h : s.Targets S) : (Stmt.comment text s).Targets S := ⟨h.shared, h.stores⟩

theorem repeatWhile {c : Exp} (h : s.Targets S) : (Stmt.repeatWhile c s).Targets S := ⟨h.shared, h.stores⟩

theorem when {c : Exp} (h : s.Targets S) : (Stmt.when c s).Targets S := by
  unfold Stmt.when
  split
  · exact h
  · exact of_nil rfl rfl
  · refine ⟨?_, fun view hview => ?_⟩
    · rw [sharedArrays, h.shared]
      rfl
    · rw [Stmt.stores, List.mem_append] at hview
      exact hview.elim (h.stores view) fun hnil => by cases hnil

theorem declareInit {name : Ident} {type : ScalarType} {x : Exp} :
    (Stmt.declareInit name type x).Targets S := of_nil rfl rfl

theorem imp (h : s.Targets S) (hS : ∀ view, S view → S' view) : s.Targets S' :=
  ⟨h.shared, fun view hview => hS view (h.stores view hview)⟩

end Targets
end Stmt

namespace Collective
variable {c : Collective} {n : Nat} {S : View → Prop}

/-- In shared memory elements are combined in the arrays of the collective. -/
theorem targets_combine {base : Exp} (hlayout : c.layout = .shared base) (dest left right : Cell)
    (keepRight : Option Exp) (volatile : Bool) (hS : ∀ view ∈ c.views, S (view.withVolatile volatile)) :
    ((c.combine dest left right keepRight volatile).run n).1.Targets S := by
  have loads : ∀ (pairs : List (View × Param)) (n : Nat), ∀ load ∈ ((pairs.mapM fun p =>
      c.loadOperands volatile left right (.int 0) p.1 p.2).run n).1, ∀ s ∈ load.2.2, s.Targets S := by
    intro pairs
    induction pairs with
    | nil => exact fun n load hload => by cases hload
    | cons p pairs ih =>
      intro n load hload
      rw [List.mapM_cons] at hload
      rcases List.mem_cons.mp hload with rfl | hload
      · intro s hs
        simp only [View.load, List.mem_append, List.mem_cons, List.not_mem_nil,
          or_false] at hs
        rcases hs with (rfl | rfl) | rfl | rfl <;> exact .of_nil rfl rfl
      · exact ih _ load hload
  unfold combine Layout.eachLane
  rw [hlayout]
  unfold combineLane
  rw [Fresh.run_bind, Fresh.run_pure]
  refine .block (List.forall_mem_append.mpr ⟨fun s hs => ?_, fun s hs => ?_⟩)
  · obtain ⟨load, hload, hs⟩ := List.mem_flatMap.mp hs
    exact loads _ _ load hload s hs
  · obtain ⟨⟨⟨view, result⟩, y⟩, hmem, rfl⟩ := List.mem_map.mp hs
    exact .write (hS view (List.of_mem_zip (List.of_mem_zip hmem).1).1)

/-- A reduction in shared memory stores to the arrays of its elements. -/
theorem targets_reduce {base : Exp} (hlayout : c.layout = .shared base) (w : Exp)
    (hS : ∀ view ∈ c.views, ∀ volatile, S (view.withVolatile volatile)) : ((c.reduce w).run n).1.Targets S := by
  have combines : ∀ n keepRight volatile (dest left right : Cell),
      ((c.combine dest left right keepRight volatile).run n).1.Targets S := fun n keepRight volatile dest left right =>
    targets_combine hlayout dest left right keepRight volatile fun view hview => hS view hview volatile
  refine .comment (.block ?_)
  simp only [List.forall_mem_cons, List.not_mem_nil, false_implies, implies_true, and_true]
  refine ⟨.declareInit, .declareInit, .declareInit, .declareInit, .declareInit, .declareInit,
    .comment (.repeatWhile (.block ?_)),
    .comment (.repeatWhile (.block ?_))⟩
  · simp only [List.forall_mem_cons, List.not_mem_nil, false_implies, implies_true, and_true]
    exact ⟨.when (combines _ _ _ _ _ _), .of_nil rfl rfl⟩
  · simp only [List.forall_mem_cons, List.not_mem_nil, false_implies, implies_true, and_true]
    exact ⟨.of_nil rfl rfl, .of_nil rfl rfl, .when (combines _ _ _ _ _ _), .of_nil rfl rfl⟩

end Collective

/-! ### What code writes -/

namespace Run
variable {ctx : GroupContext}

theorem mem_traceTurns {turn : Nat → Run Unit} {writes : Nat → GroupState → List (Nat × Write)} {e : Nat × Write} :
    ∀ {active : List Nat} {s : GroupState}, e ∈ traceTurns turn writes active s → ∃ t s', e ∈ writes t s'
  | [], _, h => by cases h
  | t :: ts, s, h => by
    rcases List.mem_append.mp h with h | h
    · exact ⟨t, s, h⟩
    · obtain ⟨_, s', -, h⟩ := mem_after.mp h
      exact mem_traceTurns h

theorem mem_traceUp {β : Type} {body : Nat → Run Unit} {events : Nat → GroupState → List β} {e : β} :
    ∀ {count first : Nat} {s : GroupState}, e ∈ traceUp body events count first s → ∃ k s', e ∈ events k s'
  | 0, _, _, h => by cases h
  | count + 1, k, s, h => by
    rcases List.mem_append.mp h with h | h
    · exact ⟨k, s, h⟩
    · obtain ⟨_, s', -, h⟩ := mem_after.mp h
      exact mem_traceUp h

theorem mem_traceWhile {β : Type} {test : List Nat → Run (List Nat)} {body : List Nat → Run Unit}
    {events : List Nat → GroupState → List β} {e : β} :
    ∀ {limit : Nat} {live : List Nat} {s : GroupState}, e ∈ traceWhile test body events limit live s → ∃ live s',
      e ∈ events live s'
  | 0, _, _, h => by cases h
  | limit + 1, live, s, h => by
    obtain ⟨live', s', -, h⟩ := mem_after.mp h
    split at h
    · cases h
    · rcases List.mem_append.mp h with h | h
      · exact ⟨live', s', h⟩
      · obtain ⟨_, s'', -, h⟩ := mem_after.mp h
        exact mem_traceWhile h

/-- A write goes to the array of a view. -/
def Hits (w : Write) (view : View) : Prop := w.slot.space = view.space ∧ w.slot.array = view.array

theorem hits_of_writeOf {view : View} {index x : Exp} {t : Nat} {s : GroupState} {e : Nat × Write}
    (h : e ∈ writeOf ctx view index x t s) : Hits e.2 view := by
  unfold writeOf at h
  split at h
  · cases h
  split at h
  · split at h
    · rw [List.mem_singleton.mp h]
      exact ⟨rfl, rfl⟩
    · cases h
  · cases h

mutual

/-- The writes of code go to the arrays that it stores to. -/
theorem hits_of_trace : ∀ {stmt : Stmt} {active : List Nat} {s : GroupState} {e : Nat × Write},
    e ∈ trace writesAt ctx stmt active s → ∃ view ∈ stmt.stores, Hits e.2 view
  | stmt, [], s, e, h => by
    rw [trace_nil] at h
    cases h
  | .seq stmts, t :: ts, s, e, h => by
    rw [trace_seq] at h
    exact hits_of_traceAll h
  | .comment text body, t :: ts, s, e, h => by
    rw [trace_comment] at h
    rw [Stmt.stores]
    exact hits_of_trace h
  | .branch c ifTrue ifFalse, t :: ts, s, e, h => by
    rw [trace_branch (List.cons_ne_nil t ts)] at h
    obtain ⟨answers, s₁, -, h⟩ := mem_after.mp h
    rw [Stmt.stores]
    rcases List.mem_append.mp h with h | h
    · obtain ⟨view, hview, hits⟩ := hits_of_trace h
      exact ⟨view, List.mem_append_left _ hview, hits⟩
    · obtain ⟨_, s₂, -, h⟩ := mem_after.mp h
      obtain ⟨view, hview, hits⟩ := hits_of_trace h
      exact ⟨view, List.mem_append_right _ hview, hits⟩
  | .loop iter bound body, t :: ts, s, e, h => by
    rw [trace_loop (List.cons_ne_nil t ts)] at h
    obtain ⟨bounds, s₁, -, h⟩ := mem_after.mp h
    split at h
    · cases h
    · obtain ⟨k, s₂, h⟩ := mem_traceUp h
      obtain ⟨_, s₃, -, h⟩ := mem_after.mp h
      rw [Stmt.stores]
      exact hits_of_trace h
  | .repeatWhile c body, t :: ts, s, e, h => by
    rw [trace_repeatWhile (List.cons_ne_nil t ts)] at h
    obtain ⟨live, s₁, h⟩ := mem_traceWhile h
    rw [Stmt.stores]
    exact hits_of_trace h
  | .write view index x, t :: ts, s, e, h => by
    rw [trace_of_isStep (List.cons_ne_nil t ts) rfl] at h
    obtain ⟨t', s', h⟩ := mem_traceTurns h
    exact ⟨view, List.mem_singleton_self view, hits_of_writeOf h⟩
  | .skip, t :: ts, s, e, h => by
    rw [trace_skip] at h
    cases h
  | .declare .., t :: ts, s, e, h | .declareArray .., t :: ts, s, e, h | .set .., t :: ts, s, e, h | .read ..,
    t :: ts, s, e, h
  | .query .., t :: ts, s, e, h | .barrier _, t :: ts, s, e, h | .memFence _, t :: ts, s, e, h | .update ..,
    t :: ts, s, e, h
  | .compareSwap .., t :: ts, s, e, h => by
    rw [trace_of_isStep (List.cons_ne_nil t ts) rfl] at h
    cases h

theorem hits_of_traceAll : ∀ {stmts : List Stmt} {active : List Nat} {s : GroupState} {e : Nat × Write},
    e ∈ traceAll writesAt ctx stmts active s → ∃ view ∈ Stmt.storesAll stmts, Hits e.2 view
  | [], active, s, e, h => by
    rw [traceAll_nil] at h
    cases h
  | stmt :: stmts, active, s, e, h => by
    rw [traceAll_cons] at h
    rw [Stmt.storesAll]
    rcases List.mem_append.mp h with h | h
    · obtain ⟨view, hview, hits⟩ := hits_of_trace h
      exact ⟨view, List.mem_append_left _ hview, hits⟩
    · obtain ⟨_, s', -, h⟩ := mem_after.mp h
      obtain ⟨view, hview, hits⟩ := hits_of_traceAll h
      exact ⟨view, List.mem_append_right _ hview, hits⟩

end
end Run
end SegKernel
