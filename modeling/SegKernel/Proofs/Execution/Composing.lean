import SegKernel.Proofs.Execution.Questions

/-! Properties that go from the steps of threads to code. If computations take a property over from what
    they are put together from, and the steps of a thread have it, then all code has it that loads and
    stores through views for which the steps have it. -/

namespace SegKernel
namespace Stmt

mutual

/-- The views through which code loads elements, in textual order. -/
def loads : Stmt → List View
  | read _ view _ | update _ _ view _ _ | compareSwap _ view _ _ _ => [view]
  | seq stmts => loadsAll stmts
  | comment _ body | loop _ _ body | repeatWhile _ body => body.loads
  | branch _ ifTrue ifFalse => ifTrue.loads ++ ifFalse.loads
  | skip | declare .. | declareArray .. | set .. | write .. | query .. | barrier _ | memFence _ => []

def loadsAll : List Stmt → List View
  | [] => []
  | s :: ss => s.loads ++ loadsAll ss

end

mutual

/-- The views through which code stores elements, in textual order. -/
def stores : Stmt → List View
  | write view _ _ | update _ _ view _ _ | compareSwap _ view _ _ _ => [view]
  | seq stmts => storesAll stmts
  | comment _ body | loop _ _ body | repeatWhile _ body => body.stores
  | branch _ ifTrue ifFalse => ifTrue.stores ++ ifFalse.stores
  | skip | declare .. | declareArray .. | set .. | read .. | query .. | barrier _ | memFence _ => []

def storesAll : List Stmt → List View
  | [] => []
  | s :: ss => s.stores ++ storesAll ss

end
end Stmt

namespace Run

/-- Computations take the property over from what they are put together from. -/
structure Composable (P : {α : Type} → Run α → Prop) : Prop where
  pure : ∀ {α : Type} (a : α), P (pure a : Run α)
  loopLimit : P (throw .loopLimit : Run Unit)
  bind : ∀ {α β : Type} {r : Run α} {q : α → Run β}, P r → (∀ a, P (q a)) → P (r >>= q)

namespace Composable
variable {P : {α : Type} → Run α → Prop} {α : Type}

/-- All threads take their turns. -/
theorem forM (h : Composable P) {turn : Nat → Run Unit} (hturn : ∀ t, P (turn t)) : ∀ active : List Nat,
    P (active.forM turn)
  | [] => h.pure ()
  | t :: ts => h.bind (hturn t) fun _ => forM h hturn ts

theorem ask (h : Composable P) {question : Nat → Run α} (hquestion : ∀ t, P (question t)) : ∀ active : List Nat,
    P (ask active question)
  | [] => h.pure []
  | t :: ts => by
    rw [Run.ask, List.mapM_cons]
    exact h.bind (h.bind (hquestion t) fun a => h.pure (t, a)) fun _ => h.bind (ask h hquestion ts) fun _ => h.pure _

theorem countUp (h : Composable P) {body : Nat → Run Unit} (hbody : ∀ k, P (body k)) : ∀ count first : Nat,
    P (countUp body count first)
  | 0, _ => h.pure ()
  | n + 1, k => h.bind (hbody k) fun _ => countUp h hbody n (k + 1)

theorem whileLive (h : Composable P) {test : List Nat → Run (List Nat)} {body : List Nat → Run Unit}
    (htest : ∀ live, P (test live)) (hbody : ∀ live, P (body live)) : ∀ (limit : Nat) (live : List Nat),
    P (whileLive test body limit live)
  | 0, live => h.bind (htest live) fun live' => by
    split
    · exact h.pure ()
    · exact h.loopLimit
  | n + 1, live => h.bind (htest live) fun live' => by
    split
    · exact h.pure ()
    · exact h.bind (hbody live') fun _ => whileLive h htest hbody n live'

end Composable

/-- The steps of the threads have the property that keep no record of accesses, if they load through `L` and
    store through `S`. -/
structure Composable.Steps (P : {α : Type} → Run α → Prop) (ctx : GroupContext) (L S : View → Prop) : Prop
    extends Composable P where
  mismatch : ∀ cause, P (throw (.typeMismatch cause) : Run Unit)
  value : ∀ t x, P (Run.value ctx t x)
  int : ∀ t x, P (Run.int ctx t x)
  condition : ∀ t x, P (Run.condition ctx t x)
  combine : ∀ op current v, P (evaluate fun _ => Run.combine op current v)
  bindScalar : ∀ t name v, P (modify fun s => s.bind t name v : Run Unit)
  assign : ∀ t name v, P (Run.assign t name v)
  declareArray : ∀ t name type length space, P (Run.declareArray ctx t name type length space)
  load : ∀ t view, L view → ∀ index, P (Run.load t view index)
  store : ∀ t view, S view → ∀ index v, P (Run.store t view index v)
  countAtomic : P (modify GroupState.countAtomic : Run Unit)

/-- All steps of the threads have the property, if they load through `L` and store through `S`. -/
structure Composable.AllSteps (P : {α : Type} → Run α → Prop) (ctx : GroupContext) (L S : View → Prop) : Prop
    extends Composable.Steps P ctx L S where
  track : ∀ t view index isWrite, P (Run.track ctx t view index isWrite)
  countBarrier : P (modify GroupState.countBarrier : Run Unit)

namespace Composable.Steps
variable {P : {α : Type} → Run α → Prop} {ctx : GroupContext} {L S : View → Prop}

theorem update (h : Steps P ctx L S) (t : Nat) (op : AtomicOp) (old : Ident) {view : View} (hl : L view) (hs : S view)
    (index x : Exp) : P (update ctx t op old view index x) :=
  h.bind (h.int t index) fun i => h.bind (h.value t x) fun v => h.bind (h.load t view hl i) fun current =>
    h.bind (h.combine op current v) fun new => h.bind (h.store t view hs i new) fun _ =>
      h.bind (h.assign t old current) fun _ => h.countAtomic

theorem compareSwap (h : Steps P ctx L S) (t : Nat) (old : Ident) {view : View} (hl : L view) (hs : S view)
    (index expected desired : Exp) : P (compareSwap ctx t old view index expected desired) := by
  refine h.bind (h.int t index) fun i => h.bind (h.value t expected) fun e => h.bind (h.value t desired) fun d => ?_
  have last : ∀ current, P (do Run.assign t old current; modify GroupState.countAtomic) := fun current =>
    h.bind (h.assign t old current) fun _ => h.countAtomic
  have swap : P (do
      let current ← Run.load t view i
      if current = e then Run.store t view i d
      Run.assign t old current
      modify GroupState.countAtomic) := by
    refine h.bind (h.load t view hl i) fun current => ?_
    split
    · exact h.bind (h.store t view hs i d) fun _ => last current
    · exact last current
  dsimp only
  split
  · exact h.bind (h.mismatch _) fun _ => swap
  · exact swap

end Composable.Steps

namespace Composable.AllSteps
variable {P : {α : Type} → Run α → Prop} {ctx : GroupContext} {L S : View → Prop}

mutual

/-- Code has the property, if it loads and stores through the right views. -/
theorem exec (h : AllSteps P ctx L S) : ∀ stmt : Stmt, (∀ view ∈ stmt.loads, L view) → (∀ view ∈ stmt.stores, S view) →
    ∀ active, P (exec ctx stmt active) := by
  intro stmt hloads hstores active
  by_cases hne : active = []
  · subst hne
    rw [exec_nil]
    exact h.pure ()
  -- The cases name the steps of which each statement is composed; loops repeat theirs.
  cases stmt with
  | skip =>
    rw [exec_skip]
    exact h.pure ()
  | seq stmts =>
    rw [Stmt.loads] at hloads
    rw [Stmt.stores] at hstores
    rw [exec_seq_eq]
    exact execAll h stmts hloads hstores active
  | comment text body =>
    rw [Stmt.loads] at hloads
    rw [Stmt.stores] at hstores
    rw [exec_comment]
    exact exec h body hloads hstores active
  | branch c ifTrue ifFalse =>
    rw [Stmt.loads, List.forall_mem_append] at hloads
    rw [Stmt.stores, List.forall_mem_append] at hstores
    rw [exec_branch hne]
    exact h.bind (h.ask (fun t => h.condition t c) active) fun answers =>
      h.bind (exec h ifTrue hloads.1 hstores.1 _) fun _ => exec h ifFalse hloads.2 hstores.2 _
  | loop iter bound body =>
    rw [Stmt.loads] at hloads
    rw [Stmt.stores] at hstores
    rw [exec_loop hne]
    refine h.bind (h.ask (fun t => h.int t bound) active) fun bounds => ?_
    have rounds : P (Run.countUp (loopStep ctx iter body bounds) (trips bounds) 0) :=
      h.countUp (fun k => h.bind (h.forM (fun t => h.bindScalar t iter _) _) fun _ => exec h body hloads hstores _) _ _
    dsimp only
    split
    · exact h.bind h.loopLimit fun _ => rounds
    · exact rounds
  | repeatWhile c body =>
    rw [Stmt.loads] at hloads
    rw [Stmt.stores] at hstores
    rw [exec_repeatWhile hne]
    exact h.whileLive (fun live => h.bind (h.ask (fun t => h.condition t c) live) fun _ => h.pure _)
      (fun live => exec h body hloads hstores live) _ _
  | declare name type volatile =>
    rw [Run.exec, if_neg (by simpa using hne)]
    exact h.forM (fun t => h.bindScalar t name _) active
  | declareArray name type length space =>
    rw [Run.exec, if_neg (by simpa using hne)]
    exact h.forM (fun t => h.declareArray t name type length space) active
  | set name x =>
    rw [Run.exec, if_neg (by simpa using hne)]
    exact h.forM (fun t => h.bind (h.value t x) fun v => h.assign t name v) active
  | read dest view index =>
    rw [Stmt.loads, List.forall_mem_singleton] at hloads
    rw [Run.exec, if_neg (by simpa using hne)]
    exact h.forM (fun t => h.bind (h.int t index) fun i => h.bind (h.load t view hloads i) fun v =>
      h.bind (h.track t view i false) fun _ => h.assign t dest v) active
  | write view index x =>
    rw [Stmt.stores, List.forall_mem_singleton] at hstores
    rw [Run.exec, if_neg (by simpa using hne)]
    exact h.forM (fun t => h.bind (h.int t index) fun i => h.bind (h.value t x) fun v =>
      h.bind (h.store t view hstores i v) fun _ => h.track t view i true) active
  | query which dest =>
    rw [Run.exec, if_neg (by simpa using hne)]
    exact h.forM (fun t => h.bindScalar t dest _) active
  | barrier fence =>
    rw [Run.exec, if_neg (by simpa using hne)]
    exact h.countBarrier
  | memFence fence =>
    rw [Run.exec, if_neg (by simpa using hne)]
    exact h.pure ()
  | update op old view index x =>
    rw [Stmt.loads, List.forall_mem_singleton] at hloads
    rw [Stmt.stores, List.forall_mem_singleton] at hstores
    rw [Run.exec, if_neg (by simpa using hne)]
    exact h.forM (fun t => h.update t op old hloads hstores index x) active
  | compareSwap old view index expected desired =>
    rw [Stmt.loads, List.forall_mem_singleton] at hloads
    rw [Stmt.stores, List.forall_mem_singleton] at hstores
    rw [Run.exec, if_neg (by simpa using hne)]
    exact h.forM (fun t => h.compareSwap t old hloads hstores index expected desired) active

theorem execAll (h : AllSteps P ctx L S) : ∀ stmts : List Stmt, (∀ view ∈ Stmt.loadsAll stmts, L view) →
    (∀ view ∈ Stmt.storesAll stmts, S view) → ∀ active, P (execAll ctx stmts active)
  | [], _, _, active => by
    rw [execAll_nil]
    exact h.pure ()
  | s :: ss, hloads, hstores, active => by
    rw [Stmt.loadsAll, List.forall_mem_append] at hloads
    rw [Stmt.storesAll, List.forall_mem_append] at hstores
    rw [execAll_cons]
    exact h.bind (exec h s hloads.1 hstores.1 active) fun _ => execAll h ss hloads.2 hstores.2 active

end
end Composable.AllSteps
end Run
end SegKernel
