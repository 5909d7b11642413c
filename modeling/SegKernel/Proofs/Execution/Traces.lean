import SegKernel.Proofs.Execution.Questions

/-! What happens along a run. The events of the elementary statements are collected along the run itself:
    what comes later starts from the state that what came before has left, and nothing comes after a
    fault. -/

namespace SegKernel

/-- Whether a statement does something and has no other statements in it. -/
def Stmt.isStep : Stmt → Bool
  | skip | seq _ | comment .. | branch .. | loop .. | repeatWhile .. => false
  | declare .. | declareArray .. | set .. | read .. | write .. | query .. | barrier _ | memFence _ | update ..
  | compareSwap .. => true

namespace Run

/-- What is collected after a computation, if it ends without a fault. -/
def after {α β : Type} (r : Run α) (s : GroupState) (rest : α → GroupState → List β) : List β :=
  match r s with
  | .ok a s' => rest a s'
  | .error .. => []

/-- The events of the turns of threads, one after another. -/
def traceTurns {β : Type} (turn : Nat → Run Unit) (events : Nat → GroupState → List β) : List Nat → GroupState → List β
  | [], _ => []
  | t :: ts, s => events t s ++ after (turn t) s fun _ s' => traceTurns turn events ts s'

/-- The events of `countUp`. -/
def traceUp {β : Type} (body : Nat → Run Unit) (events : Nat → GroupState → List β) :
    (count first : Nat) → GroupState → List β
  | 0, _, _ => []
  | n + 1, k, s => events k s ++ after (body k) s fun _ s' => traceUp body events n (k + 1) s'

/-- The events of `whileLive`. -/
def traceWhile {β : Type} (test : List Nat → Run (List Nat)) (body : List Nat → Run Unit)
    (events : List Nat → GroupState → List β) : (limit : Nat) → List Nat → GroupState → List β
  | 0, _, _ => []
  | n + 1, live, s => after (test live) s fun live s =>
    if live.isEmpty then []
    else events live s ++ after (body live) s fun _ s' => traceWhile test body events n live s'

/-- The events of a statement that has no other statements in it, when it is executed. -/
abbrev Events (β : Type) := GroupContext → Stmt → List Nat → GroupState → List β

mutual

/-- The events that a statement causes, from a state on. -/
def trace {β : Type} (events : Events β) (ctx : GroupContext) (stmt : Stmt) (active : List Nat) (s : GroupState) :
    List β :=
  if active.isEmpty then []
  else
    match stmt with
    | .skip => []
    | .seq stmts => traceAll events ctx stmts active s
    | .comment _ body => trace events ctx body active s
    | .branch c ifTrue ifFalse =>
      after (ask active fun t => condition ctx t c) s fun answers s =>
        trace events ctx ifTrue (those answers id) s ++
          after (exec ctx ifTrue (those answers id)) s fun _ s => trace events ctx ifFalse (those answers not) s
    | .loop iter bound body =>
      after (ask active fun t => int ctx t bound) s fun bounds s =>
        if ctx.loopLimit < trips bounds then []
        else
          traceUp (loopStep ctx iter body bounds) (fun k s =>
            let inner := those bounds fun b => k < b.toInt
            after (inner.forM fun t => modify fun s => s.bind t iter (.i64 (Int64.ofNat k))) s fun _ s =>
              trace events ctx body inner s) (trips bounds) 0 s
    | .repeatWhile c body =>
      traceWhile (loopTest ctx c) (fun live => exec ctx body live) (fun live s => trace events ctx body live s)
        ctx.loopLimit active s
    | stmt => events ctx stmt active s

def traceAll {β : Type} (events : Events β) (ctx : GroupContext) (stmts : List Stmt) (active : List Nat)
    (s : GroupState) : List β :=
  match stmts with
  | [] => []
  | stmt :: stmts =>
    trace events ctx stmt active s ++ after (exec ctx stmt active) s fun _ s => traceAll events ctx stmts active s

end

/-! ### Equations -/

variable {β : Type} {events : Events β} {ctx : GroupContext} {active : List Nat} {s s' : GroupState}

theorem after_ok {α β : Type} {r : Run α} {a : α} {rest : α → GroupState → List β} (h : r s = .ok a s') :
    after r s rest = rest a s' := by
  rw [after, h]

theorem mem_after {α β : Type} {r : Run α} {rest : α → GroupState → List β} {b : β} :
    b ∈ after r s rest ↔ ∃ a s', r s = .ok a s' ∧ b ∈ rest a s' := by
  unfold after
  cases r s with
  | ok a s' =>
    constructor
    · exact fun h => ⟨a, s', rfl, h⟩
    · rintro ⟨a', s₁, h, hb⟩
      cases h
      exact hb
  | error e s' => simp

theorem after_bind {α β γ : Type} (r : Run α) (f : α → Run β) (rest : β → GroupState → List γ) :
    after (r >>= f) s rest = after r s fun a s => after (f a) s rest := by
  simp only [after, bind_apply]
  cases r s <;> rfl

@[simp] theorem after_pure {α β : Type} (a : α) (rest : α → GroupState → List β) : after (pure a) s rest = rest a s :=
  rfl

theorem after_nil {α β : Type} (r : Run α) : after r s (fun _ _ => ([] : List β)) = [] := by
  unfold after
  split <;> rfl

theorem traceTurns_nil {β : Type} (turn : Nat → Run Unit) (active : List Nat) (s : GroupState) :
    traceTurns turn (fun _ _ => ([] : List β)) active s = [] := by
  induction active generalizing s with
  | nil => rfl
  | cons t ts ih => simp only [traceTurns, ih, after_nil, List.append_nil]

theorem traceUp_nil (body : Nat → Run Unit) (count first : Nat) (s : GroupState) :
    traceUp body (fun _ _ => ([] : List β)) count first s = [] := by
  induction count generalizing first s with
  | zero => rfl
  | succ n ih => simp only [traceUp, ih, after_nil, List.append_nil]

theorem traceWhile_nil (test : List Nat → Run (List Nat)) (body : List Nat → Run Unit) (limit : Nat) (live : List Nat)
    (s : GroupState) : traceWhile test body (fun _ _ => ([] : List β)) limit live s = [] := by
  induction limit generalizing live s with
  | zero => rfl
  | succ n ih => simp only [traceWhile, ih, after_nil, List.append_nil, ite_self]

@[simp] theorem trace_nil (stmt : Stmt) : trace events ctx stmt [] s = [] := by
  unfold trace
  rfl

@[simp] theorem traceAll_nil : traceAll events ctx [] active s = [] := by
  rw [traceAll]

theorem traceAll_cons (stmt : Stmt) (stmts : List Stmt) :
    traceAll events ctx (stmt :: stmts) active s =
      trace events ctx stmt active s ++ after (exec ctx stmt active) s fun _ s =>
        traceAll events ctx stmts active s := by
  rw [traceAll]

theorem traceAll_nil_active (stmts : List Stmt) : traceAll events ctx stmts [] s = [] := by
  induction stmts with
  | nil => rw [traceAll_nil]
  | cons stmt stmts ih => rw [traceAll_cons, trace_nil, exec_nil, after_pure, ih, List.nil_append]

@[simp] theorem trace_seq (stmts : List Stmt) :
    trace events ctx (.seq stmts) active s = traceAll events ctx stmts active s := by
  rw [trace]
  split
  · rename_i h
    rw [List.isEmpty_iff.mp h, traceAll_nil_active]
  · rfl

@[simp] theorem trace_comment (text : String) (body : Stmt) :
    trace events ctx (.comment text body) active s = trace events ctx body active s := by
  rw [trace]
  split
  · rename_i h
    rw [List.isEmpty_iff.mp h, trace_nil]
  · rfl

theorem trace_branch (h : active ≠ []) (c : Exp) (ifTrue ifFalse : Stmt) :
    trace events ctx (.branch c ifTrue ifFalse) active = fun s =>
      after (ask active fun t => condition ctx t c) s fun answers s =>
        trace events ctx ifTrue (those answers id) s ++
          after (exec ctx ifTrue (those answers id)) s fun _ s => trace events ctx ifFalse (those answers not) s := by
  funext s
  rw [trace, if_neg (by simpa using h)]

theorem trace_loop (h : active ≠ []) (iter : Ident) (bound : Exp) (body : Stmt) :
    trace events ctx (.loop iter bound body) active = fun s =>
      after (ask active fun t => int ctx t bound) s fun bounds s =>
        if ctx.loopLimit < trips bounds then []
        else
          traceUp (loopStep ctx iter body bounds) (fun k s =>
            let inner := those bounds fun b => k < b.toInt
            after (inner.forM fun t => modify fun s => s.bind t iter (.i64 (Int64.ofNat k))) s fun _ s =>
              trace events ctx body inner s) (trips bounds) 0 s := by
  funext s
  rw [trace, if_neg (by simpa using h)]

theorem trace_repeatWhile (h : active ≠ []) (c : Exp) (body : Stmt) :
    trace events ctx (.repeatWhile c body) active =
      traceWhile (loopTest ctx c) (fun live => exec ctx body live) (fun live s => trace events ctx body live s)
        ctx.loopLimit active := by
  funext s
  rw [trace, if_neg (by simpa using h)]

/-- A statement without others in it, which does something, causes events of its own. -/
theorem trace_of_isStep {stmt : Stmt} (h : active ≠ []) (hstep : stmt.isStep = true) :
    trace events ctx stmt active = events ctx stmt active := by
  funext s
  cases stmt with
  | skip | seq _ | comment _ _ | branch _ _ _ | loop _ _ _ | repeatWhile _ _ => cases hstep
  | _ => rw [trace, if_neg (by simpa using h)] <;> simp

theorem trace_skip : trace events ctx .skip active s = [] := by
  unfold trace
  split <;> rfl

@[simp] theorem traceAll_singleton (stmt : Stmt) :
    traceAll events ctx [stmt] active s = trace events ctx stmt active s := by
  simp only [traceAll_cons, traceAll_nil, after_nil, List.append_nil]

theorem traceAll_append (as bs : List Stmt) : ∀ s : GroupState,
    traceAll events ctx (as ++ bs) active s =
      traceAll events ctx as active s ++ after (execAll ctx as active) s fun _ s =>
        traceAll events ctx bs active s := by
  induction as with
  | nil =>
    intro s
    simp
  | cons a as ih =>
    intro s
    rw [List.cons_append, traceAll_cons, traceAll_cons, execAll_cons, after_bind, List.append_assoc]
    congr 1
    unfold after
    cases exec ctx a active s with
    | ok u s' => exact ih s'
    | error e s' => rfl

theorem traceAll_pieces (stmt : Stmt) :
    traceAll events ctx stmt.pieces active s = trace events ctx stmt active s := by
  cases stmt with
  | skip => rw [Stmt.pieces, traceAll_nil, trace_skip]
  | seq stmts => rw [Stmt.pieces, trace_seq]
  | _ => rw [Stmt.pieces, traceAll_singleton] <;> simp

theorem traceAll_flatMap_pieces (stmts : List Stmt) : ∀ s : GroupState,
    traceAll events ctx (stmts.flatMap Stmt.pieces) active s = traceAll events ctx stmts active s := by
  induction stmts with
  | nil => exact fun _ => rfl
  | cons stmt stmts ih =>
    intro s
    simp only [List.flatMap_cons, traceAll_append, traceAll_pieces, execAll_pieces, ih,
      traceAll_cons]

@[simp] theorem trace_block (stmts : List Stmt) :
    trace events ctx (.block stmts) active s = traceAll events ctx stmts active s := by
  rw [← traceAll_flatMap_pieces, Stmt.block]
  split
  · rename_i h
    rw [h, traceAll_nil, trace_skip]
  · rename_i stmt h
    rw [h, traceAll_singleton]
  · rw [trace_seq]

/-! ### The barriers of a run. Each has a mask, the threads that are active at it. -/

/-- The mask of a barrier. -/
abbrev maskAt : Events (List Nat) := fun _ stmt active _ =>
  match stmt with
  | .barrier _ => [active]
  | _ => []

/-- The masks of the barriers that a statement executes, from a state on. -/
def barrierMasks (ctx : GroupContext) (stmt : Stmt) (active : List Nat) (s : GroupState) : List (List Nat) :=
  trace maskAt ctx stmt active s

end Run
end SegKernel
