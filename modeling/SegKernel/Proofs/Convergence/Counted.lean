import SegKernel.Proofs.Execution.Traces

/-! The masks of a run are all its barriers. The device counts each barrier when it is executed, and in
    the state in which a run ends, with or without a fault, the count has grown by one for each mask. -/

namespace SegKernel
namespace Run

/-- The state in which a computation ends, with or without a fault. -/
def ending {α : Type} (r : Run α) (s : GroupState) : GroupState :=
  match r s with
  | .ok _ s' => s'
  | .error _ s' => s'

/-- The computation executes one barrier for each of the masks. -/
def Counts {α : Type} (r : Run α) (masks : GroupState → List (List Nat)) : Prop :=
  ∀ s, (ending r s).stats.barriers = s.stats.barriers + (masks s).length

/-- The computation executes no barrier. -/
abbrev CountsNone {α : Type} (r : Run α) : Prop := Counts r fun _ => []

namespace Counts
variable {α β : Type}

theorem bind {r : Run α} {f : α → Run β} {before : GroupState → List (List Nat)}
    {rest : α → GroupState → List (List Nat)} (hr : Counts r before) (hf : ∀ a, Counts (f a) (rest a)) :
    Counts (r >>= f) fun s => before s ++ after r s rest := by
  intro s
  have hs := hr s
  rw [List.length_append, ← Nat.add_assoc, ← hs]
  unfold ending Run.after
  rw [bind_apply]
  cases r s with
  | ok a s' => exact hf a s'
  | error e s' => rfl

/-- What comes after a computation without barriers. -/
theorem after {r : Run α} {f : α → Run β} {rest : α → GroupState → List (List Nat)} (hr : CountsNone r)
    (hf : ∀ a, Counts (f a) (rest a)) : Counts (r >>= f) fun s => Run.after r s rest :=
  hr.bind hf

theorem pure (a : α) : CountsNone (pure a : Run α) := fun _ => rfl

theorem throw (e : Fault) : CountsNone (throw e : Run α) := fun _ => rfl

theorem then_none {r : Run α} {f : α → Run β} (hr : CountsNone r) (hf : ∀ a, CountsNone (f a)) :
    CountsNone (r >>= f) := by
  have h := hr.bind hf
  simpa only [after_nil, List.append_nil] using h

theorem evaluate (f : GroupState → Except Fault α) : CountsNone (Run.evaluate f) := by
  intro s
  unfold ending Run.evaluate
  cases f s <;> rfl

theorem modify {f : GroupState → GroupState} (h : ∀ s, (f s).stats.barriers = s.stats.barriers) :
    CountsNone (modify f : Run Unit) := h

theorem forM {as : List α} {f : α → Run Unit} (h : ∀ a, CountsNone (f a)) : CountsNone (as.forM f) := by
  induction as with
  | nil => exact pure ()
  | cons a as ih => exact then_none (h a) fun _ => ih

theorem ask {active : List Nat} {question : Nat → Run α} (h : ∀ t, CountsNone (question t)) :
    CountsNone (Run.ask active question) := by
  unfold Run.ask
  induction active with
  | nil => exact pure []
  | cons t ts ih =>
    rw [List.mapM_cons]
    exact then_none (then_none (h t) fun _ => pure _) fun _ => then_none ih fun _ => pure _

/-! ### The steps of a thread -/

variable (ctx : GroupContext) (t : Nat)

theorem value (x : Exp) : CountsNone (Run.value ctx t x) := evaluate _
theorem int (x : Exp) : CountsNone (Run.int ctx t x) := evaluate _
theorem condition (x : Exp) : CountsNone (Run.condition ctx t x) := evaluate _
theorem load (view : View) (i : Int64) : CountsNone (Run.load t view i) := evaluate _

theorem assign (name : Ident) (v : Value) : CountsNone (Run.assign t name v) :=
  then_none (evaluate _) fun _ => modify fun _ => rfl

theorem modifyBuffer_barriers (s : GroupState) (view : View) (f : Buffer → Buffer) :
    (s.modifyBuffer t view f).stats.barriers = s.stats.barriers := by
  unfold GroupState.modifyBuffer
  split <;> rfl

theorem store (view : View) (i : Int64) (v : Value) : CountsNone (Run.store t view i v) :=
  then_none (evaluate _) fun _ => modify fun s => modifyBuffer_barriers t s view _

theorem track (view : View) (i : Int64) (isWrite : Bool) : CountsNone (Run.track ctx t view i isWrite) := by
  intro s
  unfold ending Run.track
  by_cases h : ctx.checkRaces ∧ view.space ≠ .thread
  · rw [if_pos h]
    dsimp only
    cases s.races.record ⟨view.space, view.array, i⟩ (Int64.ofNat t / ctx.wave) isWrite <;> rfl
  · rw [if_neg h]
    rfl

theorem declareArray (name : Ident) (type : ScalarType) (length : Exp) (space : Space) :
    CountsNone (Run.declareArray ctx t name type length space) := by
  refine then_none (int ctx t length) fun _ => then_none (evaluate _) fun n => ?_
  cases space with
  | shared =>
    refine modify fun s => ?_
    unfold GroupState.declareShared
    split <;> rfl
  | thread => exact modify fun _ => rfl
  | global => exact throw _

theorem update (op : AtomicOp) (old : Ident) (view : View) (index x : Exp) :
    CountsNone (Run.update ctx t op old view index x) :=
  then_none (int ctx t index) fun _ => then_none (value ctx t x) fun _ => then_none (load t view _) fun _ =>
    then_none (evaluate _) fun _ => then_none (store t view _ _) fun _ => then_none (assign t old _) fun _ =>
      modify fun _ => rfl

theorem compareSwap (old : Ident) (view : View) (index expected desired : Exp) :
    CountsNone (Run.compareSwap ctx t old view index expected desired) := by
  have ends : ∀ v, CountsNone (do Run.assign t old v; MonadState.modifyGet fun s => ((), s.countAtomic) : Run Unit) :=
    fun v => then_none (assign t old v) fun _ => modify fun _ => rfl
  refine then_none (int ctx t index) fun i => then_none (value ctx t expected) fun e =>
    then_none (value ctx t desired) fun d => ?_
  dsimp only
  split
  · exact then_none (throw _) fun _ => then_none (load t view i) fun current => by
      split
      · exact then_none (store t view i d) fun _ => ends current
      · exact ends current
  · exact then_none (load t view i) fun current => by
      split
      · exact then_none (store t view i d) fun _ => ends current
      · exact ends current

/-! ### Loops -/

theorem countUp {body : Nat → Run Unit} {masks : Nat → GroupState → List (List Nat)}
    (h : ∀ k, Counts (body k) (masks k)) : ∀ count first : Nat,
      Counts (Run.countUp body count first) (traceUp body masks count first)
  | 0, _ => pure ()
  | n + 1, k => (h k).bind fun _ => countUp h n (k + 1)

theorem whileLive {test : List Nat → Run (List Nat)} {body : List Nat → Run Unit}
    {masks : List Nat → GroupState → List (List Nat)} (ht : ∀ live, CountsNone (test live))
    (hb : ∀ live, Counts (body live) (masks live)) : ∀ (limit : Nat) (live : List Nat),
      Counts (Run.whileLive test body limit live) (traceWhile test body masks limit live)
  | 0, live => by
    refine then_none (ht live) fun live => ?_
    split
    · exact pure ()
    · exact throw _
  | n + 1, live => by
    refine after (ht live) fun live => ?_
    split
    · exact pure ()
    · exact (hb live).bind fun _ => whileLive ht hb n live

end Counts

/-! ### Statements -/

mutual

/-- The device counts one barrier for each mask of a statement. -/
theorem exec_counts (ctx : GroupContext) (stmt : Stmt) (active : List Nat) :
    Counts (exec ctx stmt active) (trace maskAt ctx stmt active) := by
  -- Without threads nothing runs and nothing is counted, so the cases below have some.
  by_cases hne : active = []
  · subst hne
    intro s
    rw [exec_nil, trace_nil]
    rfl
  have notEmpty : active.isEmpty = false := by simpa using hne
  cases stmt with
  | seq stmts =>
    intro s
    rw [exec_seq_eq, trace_seq]
    exact execAll_counts ctx stmts active s
  | comment _ body =>
    intro s
    rw [exec_comment, trace_comment]
    exact exec_counts ctx body active s
  | branch c ifTrue ifFalse =>
    intro s
    rw [exec_branch hne]
    unfold trace
    rw [notEmpty, if_neg Bool.false_ne_true]
    exact Counts.after (Counts.ask fun t => .condition ctx t c) (fun answers =>
      (exec_counts ctx ifTrue (those answers id)).bind fun _ => exec_counts ctx ifFalse (those answers not)) s
  | loop iter bound body =>
    have round : ∀ bounds k, Counts (loopStep ctx iter body bounds k) _ := fun bounds k =>
      Counts.after (Counts.forM fun t => .modify fun _ => rfl) fun _ =>
        exec_counts ctx body (those bounds fun b => k < b.toInt)
    intro s
    rw [exec_loop hne]
    unfold trace
    rw [notEmpty, if_neg Bool.false_ne_true]
    refine Counts.after (Counts.ask fun t => .int ctx t bound) (fun bounds => ?_) s
    intro s
    split
    · rfl
    · exact Counts.countUp (round bounds) _ _ s
  | repeatWhile c body =>
    intro s
    rw [exec_repeatWhile hne]
    unfold trace
    rw [notEmpty, if_neg Bool.false_ne_true]
    refine Counts.whileLive (fun live => ?_) (fun live => exec_counts ctx body live) ctx.loopLimit active s
    exact Counts.then_none (Counts.ask fun t => .condition ctx t c) fun _ => .pure _
  | barrier fence =>
    intro s
    unfold exec trace
    rw [notEmpty, if_neg Bool.false_ne_true, if_neg Bool.false_ne_true]
    rfl
  | skip =>
    intro s
    rw [exec_skip, trace_skip]
    rfl
  | memFence fence =>
    intro s
    unfold exec trace
    rw [notEmpty, if_neg Bool.false_ne_true, if_neg Bool.false_ne_true]
    rfl
  | _ =>
    intro s
    unfold exec trace
    rw [notEmpty, if_neg Bool.false_ne_true, if_neg Bool.false_ne_true]
    refine Counts.forM (fun t => ?_) s
    first
      | exact .modify fun _ => rfl
      | exact .declareArray ctx t _ _ _ _
      | exact .then_none (.value ctx t _) fun _ => .assign t _ _
      | exact .then_none (.int ctx t _) fun _ => .then_none (.load t _ _) fun _ =>
          .then_none (.track ctx t _ _ _) fun _ => .assign t _ _
      | exact .then_none (.int ctx t _) fun _ => .then_none (.value ctx t _) fun _ =>
          .then_none (.store t _ _ _) fun _ => .track ctx t _ _ _
      | exact .update ctx t _ _ _ _ _
      | exact .compareSwap ctx t _ _ _ _ _

theorem execAll_counts (ctx : GroupContext) (stmts : List Stmt) (active : List Nat) :
    Counts (execAll ctx stmts active) (traceAll maskAt ctx stmts active) := by
  cases stmts with
  | nil =>
    intro s
    rw [execAll_nil, traceAll_nil]
    rfl
  | cons stmt stmts =>
    intro s
    rw [execAll_cons, traceAll_cons]
    exact (exec_counts ctx stmt active).bind (fun _ => execAll_counts ctx stmts active) s

end

end Run
end SegKernel
