import SegKernel.Proofs.Execution.Composing

/-! What a run leaves alone. Two runs of the same code, from memories that agree on the global arrays that
    it accesses, end in the same way, also where they end with a fault, and neither of them changes any
    other array. A thread that is not active keeps its scalars and its arrays. -/

namespace SegKernel

/-- Where a computation ends, with or without a fault. -/
def final {σ α : Type} : EStateM.Result Fault σ α → σ
  | .ok _ s | .error _ s => s

/-- The fault that a computation ends with. -/
def fault? {σ α : Type} : EStateM.Result Fault σ α → Option Fault
  | .ok _ _ => none
  | .error fault _ => some fault

/-- Two computations end with the same result or the same fault, in states that are related. -/
inductive SameEnd {σ α : Type} (R : σ → σ → Prop) : EStateM.Result Fault σ α → EStateM.Result Fault σ α → Prop
  | ok (a : α) {s s' : σ} (h : R s s') : SameEnd R (.ok a s) (.ok a s')
  | error (fault : Fault) {s s' : σ} (h : R s s') : SameEnd R (.error fault s) (.error fault s')

/-- The states are the same but for global arrays outside of `M`. -/
structure GroupState.Sharing (M : Ident → Prop) (a b : GroupState) : Prop where
  threads : b.threads = a.threads
  shared : b.shared = a.shared
  races : b.races = a.races
  stats : b.stats = a.stats
  global : ∀ x, M x → b.global[x]? = a.global[x]?

namespace GroupState.Sharing
variable {M : Ident → Prop} {a b : GroupState}

theorem scope (h : Sharing M a b) (ctx : GroupContext) (t : Nat) : b.scope ctx t = a.scope ctx t :=
  scope_of_threads ctx h.threads t

theorem modifyThread (h : Sharing M a b) (t : Nat) (f : Thread → Thread) :
    Sharing M (a.modifyThread t f) (b.modifyThread t f) :=
  ⟨congrArg (·.modify t f) h.threads, h.shared, h.races, h.stats, h.global⟩

theorem buffer? (h : Sharing M a b) {view : View} (hview : view.space = .global → M view.array) (t : Nat) :
    b.buffer? t view = a.buffer? t view := by
  unfold GroupState.buffer?
  cases hs : view.space with
  | global => exact h.global _ (hview hs)
  | shared => exact congrArg (·[view.array]?) h.shared
  | thread => exact congrArg (fun ths : Array Thread => (ths.getD t {}).arrays[view.array]?) h.threads

theorem modifyBuffer (h : Sharing M a b) (t : Nat) (view : View) (f : Buffer → Buffer) :
    Sharing M (a.modifyBuffer t view f) (b.modifyBuffer t view f) := by
  unfold GroupState.modifyBuffer
  cases view.space with
  | global =>
    refine ⟨h.threads, h.shared, h.races, h.stats, fun x hx => ?_⟩
    dsimp only
    rw [Table.getElem?_modify, Table.getElem?_modify, h.global x hx]
  | shared => exact ⟨h.threads, congrArg (Std.ExtTreeMap.modify · view.array f) h.shared, h.races, h.stats, h.global⟩
  | thread => exact h.modifyThread t _

end GroupState.Sharing

namespace Run
open GroupState
variable {α β : Type} {M : Ident → Prop}

/-- The computation depends on no global array outside of `M`, and changes none. -/
structure Confined (M : Ident → Prop) (r : Run α) : Prop where
  same : ∀ a b, a.Sharing M b → SameEnd (Sharing M) (r a) (r b)
  frame : ∀ s x, ¬M x → (final (r s)).global[x]? = s.global[x]?

namespace Confined

theorem pure (x : α) : Confined M (pure x : Run α) := ⟨fun _ _ h => .ok x h, fun _ _ _ => rfl⟩

theorem throw (fault : Fault) : Confined M (throw fault : Run α) := ⟨fun _ _ h => .error fault h, fun _ _ _ => rfl⟩

theorem bind {r : Run α} {q : α → Run β} (h : Confined M r) (h' : ∀ x, Confined M (q x)) : Confined M (r >>= q) := by
  refine ⟨fun a b hab => ?_, fun s x hx => ?_⟩
  · rw [bind_apply, bind_apply]
    have hr := h.same a b hab
    revert hr
    generalize r a = ra
    generalize r b = rb
    rintro (⟨x, hs⟩ | ⟨fault, hs⟩)
    · exact (h' x).same _ _ hs
    · exact .error fault hs
  · rw [bind_apply]
    have hr := h.frame s x hx
    revert hr
    cases r s with
    | ok a s' => exact ((h' a).frame s' x hx).trans
    | error fault s' => exact id

theorem evaluate {f : GroupState → Except Fault α} (h : ∀ a b, a.Sharing M b → f b = f a) :
    Confined M (evaluate f) := by
  refine ⟨fun a b hab => ?_, fun s x _ => ?_⟩
  · unfold Run.evaluate
    rw [h a b hab]
    cases f a with
    | ok x => exact .ok x hab
    | error fault => exact .error fault hab
  · unfold Run.evaluate
    cases f s <;> rfl

theorem change {f : GroupState → GroupState} (h : ∀ a b, a.Sharing M b → (f a).Sharing M (f b))
    (hframe : ∀ s x, ¬M x → (f s).global[x]? = s.global[x]?) : Confined M (modify f : Run Unit) :=
  ⟨fun a b hab => .ok () (h a b hab), hframe⟩

theorem composable : Composable (Confined M) := ⟨pure, throw _, bind⟩

/-! ### Steps of a thread -/

variable (ctx : GroupContext) (t : Nat)

theorem bindScalar (name : Ident) (v : Value) : Confined M (modify fun s => s.bind t name v : Run Unit) :=
  change (fun _ _ h => h.modifyThread t _) fun _ _ _ => rfl

theorem assign (name : Ident) (v : Value) : Confined M (assign t name v) := by
  refine bind (evaluate fun a b h => ?_) fun _ => bindScalar t name v
  unfold assignable
  rw [h.threads]

theorem load {view : View} (hview : view.space = .global → M view.array) (index : Int64) :
    Confined M (load t view index) :=
  evaluate fun _ _ h => by rw [h.buffer? hview]

theorem store {view : View} (hview : view.space = .global → M view.array) (index : Int64) (v : Value) :
    Confined M (store t view index v) := by
  refine bind (evaluate fun a b h => ?_) fun p => change (fun _ _ h => h.modifyBuffer t view _) fun s x hx => ?_
  · unfold storable
    rw [h.buffer? hview]
  · unfold modifyBuffer
    cases hs : view.space with
    | global =>
      dsimp only
      rw [Table.getElem?_modify_of_ne _ _ fun e : view.array = x => hx (e ▸ hview hs)]
    | _ => rfl

theorem track (view : View) (index : Int64) (isWrite : Bool) : Confined M (track ctx t view index isWrite) := by
  unfold Run.track
  refine ⟨fun a b h => ?_, fun s x _ => ?_⟩
  · rw [h.races]
    split
    · dsimp only
      split
      · exact .ok () ⟨h.threads, h.shared, rfl, h.stats, h.global⟩
      · exact .error _ h
    · exact .ok () h
  · split
    · dsimp only
      split <;> rfl
    · rfl

theorem declareArray (name : Ident) (type : ScalarType) (length : Exp) (space : Space) :
    Confined M (declareArray ctx t name type length space) := by
  refine (evaluate fun a b h => by rw [h.scope]).bind fun i => (evaluate fun _ _ _ => rfl).bind fun n => ?_
  cases space with
  | shared =>
    refine change (fun a b h => ?_) fun s x _ => ?_
    · unfold declareShared
      rw [h.shared]
      split
      · exact h
      · exact ⟨h.threads, rfl, h.races, h.stats, h.global⟩
    · unfold declareShared
      split <;> rfl
  | thread => exact change (fun _ _ h => h.modifyThread t _) fun _ _ _ => rfl
  | global => exact throw _

theorem steps : Composable.AllSteps (Confined M) ctx (fun view => view.space = .global → M view.array)
    fun view => view.space = .global → M view.array where
  toComposable := composable
  mismatch _ := throw _
  value t x := evaluate fun _ _ h => by rw [h.scope]
  int t x := evaluate fun _ _ h => by rw [h.scope]
  condition t x := evaluate fun _ _ h => by rw [h.scope]
  combine _ _ _ := evaluate fun _ _ _ => rfl
  bindScalar := bindScalar
  assign := assign
  declareArray := declareArray ctx
  load t _ hview := load t hview
  store t _ hview := store t hview
  track := track ctx
  countBarrier := change (fun _ _ h => ⟨h.threads, h.shared, congrArg RaceLog.nextEpoch h.races,
    congrArg (fun stats : LaunchStats => { stats with barriers := stats.barriers + 1 }) h.stats, h.global⟩)
      fun _ _ _ => rfl
  countAtomic := change (fun _ _ h => ⟨h.threads, h.shared, h.races,
    congrArg (fun stats : LaunchStats => { stats with atomics := stats.atomics + 1 }) h.stats, h.global⟩)
      fun _ _ _ => rfl

end Confined

/-- Code depends on the global arrays that it accesses, and changes no others. -/
theorem exec_confined (ctx : GroupContext) (stmt : Stmt)
    (haccess : ∀ view, view ∈ stmt.loads ∨ view ∈ stmt.stores → view.space = .global → M view.array)
    (active : List Nat) :
    Confined M (exec ctx stmt active) :=
  (Confined.steps ctx).exec stmt (fun view h => haccess view (Or.inl h)) (fun view h => haccess view (Or.inr h)) active

/-! ### Threads that take no part -/

/-- The computation leaves a thread as it is, also where it ends with a fault. -/
def Spares (t : Nat) (r : Run α) : Prop := ∀ s, (final (r s)).threads[t]? = s.threads[t]?

theorem mem_of_mem_those {t : Nat} {answers : List (Nat × α)} {p : α → Bool} (h : t ∈ those answers p) :
    t ∈ answers.map (·.1) := by
  obtain ⟨a, ha, rfl⟩ := List.mem_map.mp h
  exact List.mem_map_of_mem (List.mem_filter.mp ha).1

/-- Only threads that were asked are among those that have answered in some way. -/
theorem not_mem_those {t : Nat} {g : Nat → GroupState → Except Fault α} {active : List Nat} {answers : List (Nat × α)}
    {s s' : GroupState} (ht : t ∉ active) (h : ask active (fun t => evaluate (g t)) s = .ok answers s') (p : α → Bool) :
    t ∉ those answers p := fun hmem => ht ((ask_eq_ok h).2.1 ▸ mem_of_mem_those hmem)

namespace Spares
variable {t t' : Nat}

theorem pure (x : α) : Spares t (pure x : Run α) := fun _ => rfl

theorem throw (fault : Fault) : Spares t (throw fault : Run α) := fun _ => rfl

/-- The second computation counts only with results that the first one has. -/
theorem bind_of_ok {r : Run α} {q : α → Run β} (h : Spares t r) (h' : ∀ s x s', r s = .ok x s' → Spares t (q x)) :
    Spares t (r >>= q) := by
  intro s
  have hr := h s
  rw [bind_apply]
  cases hrun : r s with
  | ok x s' =>
    rw [hrun] at hr
    exact (h' s x s' hrun s').trans hr
  | error fault s' =>
    rw [hrun] at hr
    exact hr

theorem bind {r : Run α} {q : α → Run β} (h : Spares t r) (h' : ∀ x, Spares t (q x)) : Spares t (r >>= q) :=
  h.bind_of_ok fun _ x _ _ => h' x

theorem evaluate (f : GroupState → Except Fault α) : Spares t (evaluate f) := by
  intro s
  unfold Run.evaluate
  cases f s <;> rfl

theorem change {f : GroupState → GroupState} (h : ∀ s, (f s).threads[t]? = s.threads[t]?) :
    Spares t (modify f : Run Unit) := h

/-! The turns of other threads. -/

variable (ctx : GroupContext)

section Turns
variable (h : t' ≠ t)
include h

theorem modifyThread (s : GroupState) (f : Thread → Thread) : (s.modifyThread t' f).threads[t]? = s.threads[t]? := by
  rw [GroupState.modifyThread, Array.getElem?_modify, if_neg h]

theorem bindScalar (name : Ident) (v : Value) : Spares t (modify fun s => s.bind t' name v : Run Unit) :=
  change fun s => modifyThread h s _

theorem assign (name : Ident) (v : Value) : Spares t (assign t' name v) :=
  (evaluate _).bind fun _ => bindScalar h name v

theorem store (view : View) (index : Int64) (v : Value) : Spares t (store t' view index v) := by
  refine (evaluate _).bind fun p => change fun s => ?_
  unfold modifyBuffer
  cases view.space with
  | thread => exact modifyThread h s _
  | _ => rfl

theorem declareArray (name : Ident) (type : ScalarType) (length : Exp) (space : Space) :
    Spares t (declareArray ctx t' name type length space) := by
  refine (evaluate _).bind fun i => (evaluate _).bind fun n => ?_
  cases space with
  | shared => exact change fun s => by rw [declareShared_threads]
  | thread => exact change fun s => modifyThread h s _
  | global => exact throw _

end Turns

/-- The record of accesses belongs to no thread. -/
theorem track (view : View) (index : Int64) (isWrite : Bool) : Spares t (track ctx t' view index isWrite) := by
  intro s
  unfold Run.track
  split
  · dsimp only
    split <;> rfl
  · rfl

section Turns
variable (h : t' ≠ t)
include h

theorem update (op : AtomicOp) (old : Ident) (view : View) (index x : Exp) :
    Spares t (update ctx t' op old view index x) :=
  (evaluate _).bind fun i => (evaluate _).bind fun _ => (evaluate _).bind fun current => (evaluate _).bind fun new =>
    (store h view i new).bind fun _ => (assign h old current).bind fun _ => change fun _ => rfl

theorem compareSwap (old : Ident) (view : View) (index expected desired : Exp) :
    Spares t (compareSwap ctx t' old view index expected desired) := by
  refine (evaluate _).bind fun i => (evaluate _).bind fun e => (evaluate _).bind fun d => ?_
  have last : ∀ current, Spares t (do Run.assign t' old current; modify GroupState.countAtomic) := fun current =>
    (assign h old current).bind fun _ => change fun _ => rfl
  have swap : Spares t (do
      let current ← Run.load t' view i
      if current = e then Run.store t' view i d
      Run.assign t' old current
      modify GroupState.countAtomic) := by
    refine (evaluate _).bind fun current => ?_
    split
    · exact (store h view i d).bind fun _ => last current
    · exact last current
  dsimp only
  split
  · exact (throw _).bind fun _ => swap
  · exact swap

end Turns

/-! All turns, and the loops. -/

theorem forM {turn : Nat → Run Unit} (h : ∀ t', t' ≠ t → Spares t (turn t')) : ∀ {active : List Nat}, t ∉ active →
    Spares t (active.forM turn)
  | [], _ => pure ()
  | t' :: ts, ht => by
    rw [List.mem_cons, not_or] at ht
    exact (h t' (Ne.symm ht.1)).bind fun _ => forM h ht.2

theorem ask (g : Nat → GroupState → Except Fault α) : ∀ active : List Nat,
    Spares t (ask active fun t => Run.evaluate (g t))
  | [] => pure []
  | t' :: ts => by
    rw [Run.ask, List.mapM_cons]
    exact ((evaluate _).bind fun _ => pure _).bind fun _ => (ask g ts).bind fun _ => pure _

theorem countUp {body : Nat → Run Unit} (h : ∀ k, Spares t (body k)) : ∀ count first : Nat,
    Spares t (countUp body count first)
  | 0, _ => pure ()
  | n + 1, k => (h k).bind fun _ => countUp h n (k + 1)

/-- The test of a loop lets no thread in again. -/
theorem whileLive {test : List Nat → Run (List Nat)} {body : List Nat → Run Unit} (htest : ∀ live, Spares t (test live))
    (hlive : ∀ live s live' s', t ∉ live → test live s = .ok live' s' → t ∉ live')
    (hbody : ∀ live, t ∉ live → Spares t (body live)) : ∀ (limit : Nat) (live : List Nat), t ∉ live →
      Spares t (whileLive test body limit live)
  | 0, live, _ => (htest live).bind fun live' => by
    split
    · exact pure ()
    · exact throw _
  | n + 1, live, ht => (htest live).bind_of_ok fun s live' s' hrun => by
    have ht' := hlive live s live' s' ht hrun
    split
    · exact pure ()
    · exact (hbody live' ht').bind fun _ => whileLive htest hlive hbody n live' ht'

end Spares

section Inactive
variable {t : Nat} (ctx : GroupContext)

mutual

/-- Whatever masks arise on the way, a thread that is not active at the start is active in none of them. -/
theorem exec_spares (stmt : Stmt) {active : List Nat} (ht : t ∉ active) : Spares t (exec ctx stmt active) := by
  by_cases hne : active = []
  · subst hne
    rw [exec_nil]
    exact .pure ()
  -- What a statement runs, it runs for threads among those that are active.
  cases stmt with
  | skip =>
    rw [exec_skip]
    exact .pure ()
  | seq stmts =>
    rw [exec_seq_eq]
    exact execAll_spares stmts ht
  | comment text body =>
    rw [exec_comment]
    exact exec_spares body ht
  | branch c ifTrue ifFalse =>
    rw [exec_branch hne]
    refine (Spares.ask _ active).bind_of_ok fun s answers s' hask => ?_
    exact (exec_spares ifTrue (not_mem_those ht hask id)).bind fun _ => exec_spares ifFalse (not_mem_those ht hask not)
  | loop iter bound body =>
    rw [exec_loop hne]
    refine (Spares.ask _ active).bind_of_ok fun s bounds s' hask => ?_
    have round : ∀ k, Spares t (loopStep ctx iter body bounds k) := fun k =>
      (Spares.forM (fun t' h => Spares.bindScalar h iter _) (not_mem_those ht hask _)).bind fun _ =>
        exec_spares body (not_mem_those ht hask _)
    dsimp only
    split
    · exact (Spares.throw _).bind fun _ => Spares.countUp round _ _
    · exact Spares.countUp round _ _
  | repeatWhile c body =>
    rw [exec_repeatWhile hne]
    refine Spares.whileLive (fun live => (Spares.ask _ live).bind fun _ => .pure _)
      (fun live s live' s' hlive htest => ?_)
      (fun live hlive => exec_spares body hlive) _ _ ht
    obtain ⟨-, answers, hask, rfl⟩ := loopTest_ok htest
    exact not_mem_those hlive hask id
  | declare name type volatile =>
    rw [exec, if_neg (by simpa using hne)]
    exact .forM (fun t' h => Spares.bindScalar h name _) ht
  | declareArray name type length space =>
    rw [exec, if_neg (by simpa using hne)]
    exact .forM (fun t' h => Spares.declareArray ctx h name type length space) ht
  | set name x =>
    rw [exec, if_neg (by simpa using hne)]
    exact .forM (fun t' h => (Spares.evaluate _).bind fun v => Spares.assign h name v) ht
  | read dest view index =>
    rw [exec, if_neg (by simpa using hne)]
    exact .forM (fun t' h => (Spares.evaluate _).bind fun i => (Spares.evaluate _).bind fun v =>
      (Spares.track ctx view i false).bind fun _ => Spares.assign h dest v) ht
  | write view index x =>
    rw [exec, if_neg (by simpa using hne)]
    exact .forM (fun t' h => (Spares.evaluate _).bind fun i => (Spares.evaluate _).bind fun v =>
      (Spares.store h view i v).bind fun _ => Spares.track ctx view i true) ht
  | query which dest =>
    rw [exec, if_neg (by simpa using hne)]
    exact .forM (fun t' h => Spares.bindScalar h dest _) ht
  | barrier fence =>
    rw [exec, if_neg (by simpa using hne)]
    exact .change fun _ => rfl
  | memFence fence =>
    rw [exec, if_neg (by simpa using hne)]
    exact .pure ()
  | update op old view index x =>
    rw [exec, if_neg (by simpa using hne)]
    exact .forM (fun t' h => Spares.update ctx h op old view index x) ht
  | compareSwap old view index expected desired =>
    rw [exec, if_neg (by simpa using hne)]
    exact .forM (fun t' h => Spares.compareSwap ctx h old view index expected desired) ht

theorem execAll_spares (stmts : List Stmt) {active : List Nat} (ht : t ∉ active) :
    Spares t (execAll ctx stmts active) := by
  cases stmts with
  | nil =>
    rw [execAll_nil]
    exact .pure ()
  | cons stmt stmts =>
    rw [execAll_cons]
    exact (exec_spares stmt ht).bind fun _ => execAll_spares stmts ht

end
end Inactive

/-- The threads that are not active keep their scalars and their arrays, whether or not a fault stops the others.
    Where no thread is active, nothing happens at all. -/
theorem inactive_frozen (ctx : GroupContext) (stmt : Stmt) (active : List Nat) (s : GroupState) :
    (∀ t, t ∉ active → (final (exec ctx stmt active s)).threads[t]? = s.threads[t]?) ∧
      (active = [] → exec ctx stmt active s = .ok () s) := by
  refine ⟨fun t ht => exec_spares ctx stmt ht s, ?_⟩
  rintro rfl
  rw [exec_nil]
  rfl

/-- The round after the first divides by zero. -/
def stumble : Stmt :=
  .loop "i" (.var "n") (.branch (.compare .eq (.var "i") (.int 0))
    (.set "x" (.binary .add (.var "x") (.int 1)))
    (.set "x" (.binary .div (.var "x") (.int 0))))

def stumbleContext : GroupContext where
  captured := ({} : Table Value).insert "n" (.i64 3)
  group := 0
  groupSize := 2
  numGroups := 1
  wave := 2
  loopLimit := 8
  checkRaces := true

/-- Two threads with an `x` of their own. -/
def stumbleStart : GroupState where
  threads := #[⟨({} : Table Value).insert "x" (.i64 5), {}⟩,
    ⟨({} : Table Value).insert "x" (.i64 7), ({} : Memory).insert "row" (.ofValues .i64 [.i64 1, .i64 2])⟩]
  global := {}
  stats := {}

/-- One thread gets to the division, and the other has not changed when the run stops there. -/
theorem stumble_alone :
    let r := exec stumbleContext stumble [0] stumbleStart
    (final r).threads[1]? = stumbleStart.threads[1]? ∧ fault? r = some .divisionByZero ∧
      (final r).threads[0]?.map (·.scalars["x"]?) = some (some (.i64 6)) :=
  ⟨(inactive_frozen stumbleContext stumble [0] stumbleStart).1 1 (by decide), by decide +kernel, by decide +kernel⟩

end Run
end SegKernel
