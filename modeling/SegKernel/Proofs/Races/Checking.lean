import SegKernel.Proofs.Execution.Composing
import SegKernel.Proofs.Execution.Traces
import SegKernel.Proofs.Races.Histories
import SegKernel.Proofs.Races.Rights

/-! Code with and without checks for races. What the threads of a group do to the elements that waves
    share is collected along the run without checks. The run with checks follows it up to the first
    access that races, and stops there. -/

namespace SegKernel

/-- The context with or without checks for races. -/
def GroupContext.checking (ctx : GroupContext) (checkRaces : Bool) : GroupContext := { ctx with checkRaces }

theorem GroupContext.checking_checking {ctx : GroupContext} (h : ctx.checkRaces = true) :
    (ctx.checking false).checking true = ctx := by
  rw [← h]
  rfl

namespace Run
open GroupState
variable {α β : Type}

/-! ### The accesses of a run -/

/-- An access, if other waves can access the element. -/
def touchOf (view : View) (t : Nat) (index : Int64) (isWrite : Bool) : List Event :=
  if view.space = .thread then [] else [.touch ⟨t, ⟨view.space, view.array, index⟩, isWrite⟩]

/-- A thread has read as soon as it has loaded the element, whether or not it can assign it then. -/
def readTouch (ctx : GroupContext) (view : View) (index : Exp) (t : Nat) (s : GroupState) : List Event :=
  after (int ctx t index) s fun i s => after (load t view i) s fun _ _ => touchOf view t i false

def writeTouch (ctx : GroupContext) (view : View) (index x : Exp) (t : Nat) (s : GroupState) : List Event :=
  after (int ctx t index) s fun i s => after (value ctx t x) s fun v s =>
    after (store t view i v) s fun _ _ => touchOf view t i true

/-- The plain accesses of a statement to what waves share, and its barriers. Atomic operations are not
    among them. -/
def touchesAt : Events Event := fun ctx stmt active s =>
  match stmt with
  | .read dest view index => traceTurns (readTurn ctx dest view index) (readTouch ctx view index) active s
  | .write view index x => traceTurns (writeTurn ctx view index x) (writeTouch ctx view index x) active s
  | .barrier _ => [.barrier]
  | _ => []

/-! ### Computations that do not look at the log -/

/-- The result with another log in the state where the computation ends. -/
def withLog (m : RaceLog) : EStateM.Result Fault GroupState α → EStateM.Result Fault GroupState α
  | .ok a s => .ok a { s with races := m }
  | .error fault s => .error fault { s with races := m }

/-- The computation neither looks at the log nor changes it. -/
def Blind (r : Run α) : Prop := ∀ m s, r { s with races := m } = withLog m (r s)

namespace Blind

theorem pure (a : α) : Blind (pure a : Run α) := fun _ _ => rfl

theorem throw (fault : Fault) : Blind (throw fault : Run α) := fun _ _ => rfl

theorem bind {r : Run α} {q : α → Run β} (h : Blind r) (h' : ∀ a, Blind (q a)) : Blind (r >>= q) := by
  intro m s
  rw [bind_apply, bind_apply, h m s]
  cases r s with
  | ok a s' => exact h' a m s'
  | error fault s' => rfl

theorem evaluate {f : GroupState → Except Fault α} (h : ∀ m s, f { s with races := m } = f s) : Blind (evaluate f) := by
  intro m s
  unfold Run.evaluate
  rw [h m s]
  cases f s <;> rfl

theorem change {f : GroupState → GroupState} (h : ∀ m s, f { s with races := m } = { f s with races := m }) :
    Blind (modify f : Run Unit) := fun m s => congrArg (EStateM.Result.ok ()) (h m s)

theorem composable : Composable Blind := ⟨pure, throw _, bind⟩

variable (ctx : GroupContext) (t : Nat)

theorem bindScalar (name : Ident) (v : Value) : Blind (modify fun s => s.bind t name v : Run Unit) :=
  change fun _ _ => rfl

theorem store (view : View) (index : Int64) (v : Value) : Blind (store t view index v) := by
  refine bind (evaluate fun _ _ => rfl) fun p => change fun m s => ?_
  unfold modifyBuffer
  cases view.space <;> rfl

theorem declareArray (name : Ident) (type : ScalarType) (length : Exp) (space : Space) :
    Blind (declareArray ctx t name type length space) := by
  refine (evaluate fun _ _ => rfl).bind fun i => (evaluate fun _ _ => rfl).bind fun n => ?_
  cases space with
  | shared =>
    refine change fun m s => ?_
    unfold declareShared
    split <;> rfl
  | thread => exact change fun _ _ => rfl
  | global => exact throw _

theorem steps : Composable.Steps Blind ctx (fun _ => True) fun _ => True where
  toComposable := composable
  mismatch _ := throw _
  value _ _ := evaluate fun _ _ => rfl
  int _ _ := evaluate fun _ _ => rfl
  condition _ _ := evaluate fun _ _ => rfl
  combine _ _ _ := evaluate fun _ _ => rfl
  bindScalar := bindScalar
  assign t name v := (evaluate fun _ _ => rfl).bind fun _ => bindScalar t name v
  declareArray := declareArray ctx
  load _ _ _ _ := evaluate fun _ _ => rfl
  store t view _ := store t view
  countAtomic := change fun _ _ => rfl

end Blind

/-! ### Computations without races -/

/-- The computation never ends with a data race. -/
def Calm (r : Run α) : Prop := ∀ s fault s', r s = .error fault s' → ¬fault.IsRace

namespace Calm

theorem pure (a : α) : Calm (pure a : Run α) := fun _ _ _ h => by cases h

theorem throw {fault : Fault} (h : ¬fault.IsRace) : Calm (throw fault : Run α) := fun _ _ _ hrun => by
  cases hrun
  exact h

theorem bind {r : Run α} {q : α → Run β} (h : Calm r) (h' : ∀ a, Calm (q a)) : Calm (r >>= q) := by
  intro s fault s'' hrun
  rw [bind_apply] at hrun
  cases hr : r s with
  | ok a s' =>
    rw [hr] at hrun
    exact h' a s' fault s'' hrun
  | error fault' s' =>
    rw [hr] at hrun
    cases hrun
    exact h s fault s'' hr

theorem evaluate {f : GroupState → Except Fault α} (h : ∀ s, Peaceful (f s)) : Calm (evaluate f) := by
  intro s fault s' hrun
  unfold Run.evaluate at hrun
  cases hf : f s with
  | ok a =>
    rw [hf] at hrun
    cases hrun
  | error fault' =>
    rw [hf] at hrun
    cases hrun
    exact h s fault hf

theorem change (f : GroupState → GroupState) : Calm (modify f : Run Unit) := fun _ _ _ h => by cases h

theorem mismatch (cause : Mismatch) : Calm (MonadExcept.throw (.typeMismatch cause) : Run α) :=
  throw (Fault.not_isRace (by simp))

variable {ctx : GroupContext}

theorem declareArray (t : Nat) (name : Ident) (type : ScalarType) (length : Exp) (space : Space) :
    Calm (declareArray ctx t name type length space) := by
  refine (evaluate fun s => length.peaceful_evalInt _).bind fun i =>
    (evaluate fun _ => peaceful_arrayLength name i).bind fun n => ?_
  cases space with
  | shared => exact change _
  | thread => exact change _
  | global => exact mismatch _

theorem combine (op : AtomicOp) (current v : Value) : Peaceful (combine op current v) := by
  unfold Run.combine
  split
  · exact .ok v
  all_goals exact Value.peaceful_binary _ current v

theorem track (hoff : ctx.checkRaces = false) (t : Nat) (view : View) (index : Int64) (isWrite : Bool) :
    Calm (track ctx t view index isWrite) := by
  intro s fault s' hrun
  unfold Run.track at hrun
  rw [if_neg (by simp [hoff])] at hrun
  cases hrun

theorem steps (hoff : ctx.checkRaces = false) : Composable.AllSteps Calm ctx (fun _ => True) fun _ => True where
  pure := pure
  loopLimit := throw (Fault.not_isRace (by simp))
  bind := bind
  mismatch := mismatch
  value _ x := evaluate fun _ => x.peaceful_eval _
  int _ x := evaluate fun _ => x.peaceful_evalInt _
  condition _ x := evaluate fun _ => x.peaceful_evalBool _
  combine op current v := evaluate fun _ => combine op current v
  bindScalar _ _ _ := change _
  assign t name v := (evaluate fun s => peaceful_assignable s t name v).bind fun _ => change _
  declareArray := declareArray
  load t view _ index := evaluate fun s => peaceful_element s t view index
  store t view _ index v := (evaluate fun s => peaceful_storable s t view index v).bind fun _ => change _
  countAtomic := change _
  track := track hoff
  countBarrier := change _

end Calm

/-- Without checks no race is found. -/
theorem exec_calm {ctx : GroupContext} (hoff : ctx.checkRaces = false) (stmt : Stmt) (active : List Nat) :
    Calm (exec ctx stmt active) :=
  (Calm.steps hoff).exec stmt (fun _ _ => trivial) (fun _ _ => trivial) active

/-! ### Following a run -/

/-- The second computation does what the first one does, as long as no accesses race, and keeps a log of
    them; where two have raced, it has stopped. -/
def Checks (wave : Nat → Int64) (r r' : Run α) (events : GroupState → List Event) : Prop :=
  ∀ es m s, RaceLog.Describes wave es m →
    (∃ m', m'.Describes wave (es ++ events s) ∧ r' { s with races := m } = withLog m' (r s)) ∨
      (Races wave (es ++ events s) ∧ ∃ fault s', r' { s with races := m } = .error fault s' ∧ fault.IsRace)

namespace Checks
variable {wave : Nat → Int64}

theorem of_blind {r : Run α} (h : Blind r) : Checks wave r r fun _ => [] := by
  intro es m s hm
  rw [List.append_nil]
  exact Or.inl ⟨m, hm, h m s⟩

theorem bind {r r' : Run α} {q q' : α → Run β} {events : GroupState → List Event}
    {events' : α → GroupState → List Event} (h : Checks wave r r' events)
    (h' : ∀ a, Checks wave (q a) (q' a) (events' a)) :
    Checks wave (r >>= q) (r' >>= q') fun s => events s ++ after r s events' := by
  intro es m s hm
  rw [bind_apply, bind_apply, ← List.append_assoc]
  rcases h es m s hm with ⟨m', hm', hr'⟩ | ⟨hraces, fault, s', hr', hfault⟩
  · rw [hr']
    unfold after
    cases r s with
    | ok a s' => exact h' a _ m' s' hm'
    | error fault s' =>
      rw [List.append_nil]
      exact Or.inl ⟨m', hm', rfl⟩
  · rw [hr']
    exact Or.inr ⟨hraces.append _, fault, s', rfl, hfault⟩

/-- A computation that does not look at the log comes first. -/
theorem after_blind {r : Run α} {q q' : α → Run β} {events : α → GroupState → List Event} (h : Blind r)
    (h' : ∀ a, Checks wave (q a) (q' a) (events a)) : Checks wave (r >>= q) (r >>= q') fun s => after r s events :=
  (of_blind h).bind h'

/-- A computation that does not look at the log comes last. -/
theorem before_blind {r r' : Run α} {q : α → Run β} {events : GroupState → List Event} (h : Checks wave r r' events)
    (h' : ∀ a, Blind (q a)) : Checks wave (r >>= q) (r' >>= q) events := by
  have := h.bind fun a => of_blind (h' a)
  simpa only [after_nil, List.append_nil] using this

theorem forM {turn turn' : Nat → Run Unit} {events : Nat → GroupState → List Event}
    (h : ∀ t, Checks wave (turn t) (turn' t) (events t)) : ∀ active : List Nat,
    Checks wave (active.forM turn) (active.forM turn') (traceTurns turn events active)
  | [] => of_blind (.pure ())
  | t :: ts => (h t).bind fun _ => forM h ts

theorem countUp {body body' : Nat → Run Unit} {events : Nat → GroupState → List Event}
    (h : ∀ k, Checks wave (body k) (body' k) (events k)) : ∀ count first : Nat,
    Checks wave (countUp body count first) (countUp body' count first) (traceUp body events count first)
  | 0, _ => of_blind (.pure ())
  | n + 1, k => (h k).bind fun _ => countUp h n (k + 1)

theorem whileLive {test : List Nat → Run (List Nat)} {body body' : List Nat → Run Unit}
    {events : List Nat → GroupState → List Event} (htest : ∀ live, Blind (test live))
    (hbody : ∀ live, Checks wave (body live) (body' live) (events live)) : ∀ (limit : Nat) (live : List Nat),
    Checks wave (whileLive test body limit live) (whileLive test body' limit live)
      (traceWhile test body events limit live)
  | 0, live => of_blind ((htest live).bind fun live' => by
    split
    · exact .pure ()
    · exact .throw _)
  | n + 1, live => by
    refine after_blind (htest live) fun live' => ?_
    split
    · exact of_blind (.pure ())
    · exact (hbody live').bind fun _ => whileLive htest hbody n live'

/-! ### Steps of a thread -/

variable {ctx : GroupContext}

theorem track (hoff : ctx.checkRaces = false) (t : Nat) (view : View) (index : Int64) (isWrite : Bool) :
    Checks (waveOf ctx) (track ctx t view index isWrite) (track (ctx.checking true) t view index isWrite)
      fun _ => touchOf view t index isWrite := by
  intro es m s hm
  have off : Run.track ctx t view index isWrite s = .ok () s := by
    unfold Run.track
    rw [if_neg (by simp [hoff])]
  rw [off]
  unfold touchOf Run.track
  by_cases hspace : view.space = .thread
  · rw [if_pos hspace, if_neg (by simp [hspace]), List.append_nil]
    exact Or.inl ⟨m, hm, rfl⟩
  · rw [if_neg hspace, if_pos ⟨rfl, hspace⟩]
    dsimp only
    -- The log describes the past, so it takes up the access unless the access races.
    by_cases hrace : Races.With (waveOf ctx) es ⟨t, ⟨view.space, view.array, index⟩, isWrite⟩
    · obtain ⟨other, hother⟩ := hm.record_error hrace
      refine Or.inr ⟨Races.touch_iff.mpr (Or.inr hrace), .dataRace view.array index other (waveOf ctx t),
        { s with races := m }, ?_,
        _, _, _, _, rfl⟩
      rw [show m.record _ (Int64.ofNat t / (ctx.checking true).wave) isWrite = .error other from hother]
      rfl
    · obtain ⟨m', hm', hdescribes⟩ := hm.record_ok hrace
      refine Or.inl ⟨m', hdescribes, ?_⟩
      rw [show m.record _ (Int64.ofNat t / (ctx.checking true).wave) isWrite = .ok m' from hm']
      rfl

theorem readTurn (hoff : ctx.checkRaces = false) (dest : Ident) (view : View) (index : Exp) (t : Nat) :
    Checks (waveOf ctx) (readTurn ctx dest view index t) (readTurn (ctx.checking true) dest view index t)
      (readTouch ctx view index t) :=
  after_blind ((Blind.steps ctx).int t index) fun i => after_blind ((Blind.steps ctx).load t view trivial i) fun v =>
    (track hoff t view i false).before_blind fun _ => (Blind.steps ctx).assign t dest v

theorem writeTurn (hoff : ctx.checkRaces = false) (view : View) (index x : Exp) (t : Nat) :
    Checks (waveOf ctx) (writeTurn ctx view index x t) (writeTurn (ctx.checking true) view index x t)
      (writeTouch ctx view index x t) :=
  after_blind ((Blind.steps ctx).int t index) fun i => after_blind ((Blind.steps ctx).value t x) fun v =>
    after_blind ((Blind.steps ctx).store t view trivial i v) fun _ => track hoff t view i true

theorem countBarrier : Checks wave (modify countBarrier : Run Unit) (modify countBarrier) fun _ => [.barrier] :=
  fun _ m _ hm => Or.inl ⟨m.nextEpoch, hm.barrier, rfl⟩

end Checks

/-! ### Statements -/

variable {ctx : GroupContext}

mutual

/-- Code with checks for races does what it does without them, up to the first race. -/
theorem exec_checks (hoff : ctx.checkRaces = false) : ∀ (stmt : Stmt) (active : List Nat),
    Checks (waveOf ctx) (exec ctx stmt active) (exec (ctx.checking true) stmt active)
      (trace touchesAt ctx stmt active) := by
  intro stmt active
  by_cases hne : active = []
  · subst hne
    rw [exec_nil, exec_nil, show trace touchesAt ctx stmt [] = fun _ => [] from funext fun _ => trace_nil stmt]
    exact .of_blind (.pure ())
  have hactive : active.isEmpty = false := exec_of_ne_nil hne
  -- Reads, writes and barriers concern the log; the other steps, atomic operations among them, are blind to it.
  have steps := Blind.steps ctx
  cases stmt with
  | skip =>
    rw [exec_skip, exec_skip, show trace touchesAt ctx .skip active = fun _ => [] from funext fun _ => trace_skip]
    exact .of_blind (.pure ())
  | seq stmts =>
    rw [exec_seq_eq, exec_seq_eq,
      show trace touchesAt ctx (.seq stmts) active = traceAll touchesAt ctx stmts active from
        funext fun _ => trace_seq stmts]
    exact execAll_checks hoff stmts active
  | comment text body =>
    rw [exec_comment, exec_comment,
      show trace touchesAt ctx (.comment text body) active = _ from funext fun _ => trace_comment text body]
    exact exec_checks hoff body active
  | branch c ifTrue ifFalse =>
    rw [exec_branch hne, exec_branch hne, trace_branch hne]
    exact .after_blind (steps.ask (fun t => steps.condition t c) active) fun answers =>
      (exec_checks hoff ifTrue _).bind fun _ => exec_checks hoff ifFalse _
  | loop iter bound body =>
    rw [exec_loop hne, exec_loop hne, trace_loop hne]
    refine .after_blind (steps.ask (fun t => steps.int t bound) active) fun bounds => ?_
    rw [show (ctx.checking true).loopLimit = ctx.loopLimit from rfl]
    dsimp only
    split
    · exact .of_blind (.throw .loopLimit)
    · exact .countUp (fun k => .after_blind (steps.forM (fun t => steps.bindScalar t iter _) _) fun _ =>
        exec_checks hoff body _) _ _
  | repeatWhile c body =>
    rw [exec_repeatWhile hne, exec_repeatWhile hne, trace_repeatWhile hne]
    exact .whileLive (fun live => (steps.ask (fun t => steps.condition t c) live).bind fun _ => .pure _)
      (fun live => exec_checks hoff body live) _ _
  | read dest view index =>
    rw [exec, exec, hactive, trace_of_isStep hne rfl]
    exact .forM (Checks.readTurn hoff dest view index) active
  | write view index x =>
    rw [exec, exec, hactive, trace_of_isStep hne rfl]
    exact .forM (Checks.writeTurn hoff view index x) active
  | barrier fence =>
    rw [exec, exec, hactive, trace_of_isStep hne rfl]
    exact .countBarrier
  | declare name type volatile =>
    rw [exec, exec, hactive, trace_of_isStep hne rfl]
    exact .of_blind (steps.forM (fun t => steps.bindScalar t name _) active)
  | declareArray name type length space =>
    rw [exec, exec, hactive, trace_of_isStep hne rfl]
    exact .of_blind (steps.forM (fun t => steps.declareArray t name type length space) active)
  | set name x =>
    rw [exec, exec, hactive, trace_of_isStep hne rfl]
    exact .of_blind (steps.forM (fun t => (steps.value t x).bind fun v => steps.assign t name v) active)
  | query which dest =>
    rw [exec, exec, hactive, trace_of_isStep hne rfl]
    exact .of_blind (steps.forM (fun t => steps.bindScalar t dest _) active)
  | memFence fence =>
    rw [exec, exec, hactive, trace_of_isStep hne rfl]
    exact .of_blind (.pure ())
  | update op old view index x =>
    rw [exec, exec, hactive, trace_of_isStep hne rfl]
    exact .of_blind (steps.forM (fun t => steps.update t op old trivial trivial index x) active)
  | compareSwap old view index expected desired =>
    rw [exec, exec, hactive, trace_of_isStep hne rfl]
    exact .of_blind (steps.forM (fun t => steps.compareSwap t old trivial trivial index expected desired) active)

theorem execAll_checks (hoff : ctx.checkRaces = false) : ∀ (stmts : List Stmt) (active : List Nat),
    Checks (waveOf ctx) (execAll ctx stmts active) (execAll (ctx.checking true) stmts active)
      (traceAll touchesAt ctx stmts active)
  | [], active => by
    rw [execAll_nil, execAll_nil, show traceAll touchesAt ctx [] active = fun _ => [] from funext fun _ => traceAll_nil]
    exact .of_blind (.pure ())
  | stmt :: stmts, active => by
    rw [execAll_cons, execAll_cons,
      show traceAll touchesAt ctx (stmt :: stmts) active = _ from funext fun _ => traceAll_cons stmt stmts]
    exact (exec_checks hoff stmt active).bind fun _ => execAll_checks hoff stmts active

end

/-- The log, where one is kept, describes the accesses of some run. -/
def Logged (ctx : GroupContext) (s : GroupState) : Prop :=
  ctx.checkRaces = true → ∃ es, s.races.Describes (waveOf ctx) es

/-- Code that ends without a fault leaves a log that describes accesses, if it found one. -/
theorem exec_logged {stmt : Stmt} {active : List Nat} {s s' : GroupState} (hs : Logged ctx s)
    (h : exec ctx stmt active s = .ok () s') : Logged ctx s' := by
  intro hchecked
  have hunchecked : (ctx.checking false).checkRaces = false := rfl
  obtain ⟨es, hes⟩ := hs hchecked
  obtain ⟨m, hm, hrun⟩ | ⟨-, fault, s₁, hrun, -⟩ := exec_checks hunchecked stmt active es s.races s hes
  · rw [GroupContext.checking_checking hchecked] at hrun
    cases hoff : exec (ctx.checking false) stmt active s with
    | ok u s₀ =>
      rw [hoff] at hrun
      obtain rfl := (EStateM.Result.ok.inj (h.symm.trans hrun)).2
      exact ⟨_, hm⟩
    | error fault s₀ =>
      rw [hoff] at hrun
      cases h.symm.trans hrun
  · rw [GroupContext.checking_checking hchecked] at hrun
    cases h.symm.trans hrun

end Run
end SegKernel
