import SegKernel.Kernel.Hoist
import SegKernel.Proofs.Evaluation.Variables
import SegKernel.Proofs.Execution.Lockstep

/-! Code that does the same as other code, in what it leaves and in what it writes on the way: code whose
    variables have the same values around it, and code from which declarations of shared arrays are
    hoisted that it does not have. -/

namespace SegKernel

/-- A statement in a context does what another statement does in another context. -/
structure Mimics (ctx ctx' : GroupContext) (stmt stmt' : Stmt) : Prop where
  exec : ∀ active, Run.exec ctx stmt active = Run.exec ctx' stmt' active
  trace : ∀ active s, Run.trace Run.writesAt ctx stmt active s = Run.trace Run.writesAt ctx' stmt' active s

/-- The same for statements one after another. -/
structure MimicsAll (ctx ctx' : GroupContext) (stmts stmts' : List Stmt) : Prop where
  exec : ∀ active, Run.execAll ctx stmts active = Run.execAll ctx' stmts' active
  trace : ∀ active s, Run.traceAll Run.writesAt ctx stmts active s = Run.traceAll Run.writesAt ctx' stmts' active s

variable {ctx ctx' : GroupContext} {stmt stmt' : Stmt} {stmts stmts' : List Stmt}

namespace MimicsAll

theorem nil : MimicsAll ctx ctx' [] [] := by
  refine ⟨fun active => ?_, fun active s => ?_⟩
  · rw [Run.execAll_nil, Run.execAll_nil]
  · rw [Run.traceAll_nil, Run.traceAll_nil]

theorem cons (h : Mimics ctx ctx' stmt stmt') (hs : MimicsAll ctx ctx' stmts stmts') :
    MimicsAll ctx ctx' (stmt :: stmts) (stmt' :: stmts') := by
  refine ⟨fun active => ?_, fun active s => ?_⟩
  · rw [Run.execAll_cons, Run.execAll_cons, h.exec, hs.exec]
  · simp only [Run.traceAll_cons, h.trace, h.exec, hs.trace]

theorem append {rest rest' : List Stmt} (h : MimicsAll ctx ctx' stmts stmts') (h' : MimicsAll ctx ctx' rest rest') :
    MimicsAll ctx ctx' (stmts ++ rest) (stmts' ++ rest') := by
  refine ⟨fun active => ?_, fun active s => ?_⟩
  · rw [Run.execAll_append, Run.execAll_append, h.exec, h'.exec]
  · simp only [Run.traceAll_append, h.trace, h.exec, h'.trace]

end MimicsAll

namespace Mimics

theorem refl (ctx : GroupContext) (stmt : Stmt) : Mimics ctx ctx stmt stmt := ⟨fun _ => rfl, fun _ _ => rfl⟩

theorem symm (h : Mimics ctx ctx' stmt stmt') : Mimics ctx' ctx stmt' stmt :=
  ⟨fun active => (h.exec active).symm, fun active s => (h.trace active s).symm⟩

theorem trans {ctx'' : GroupContext} {stmt'' : Stmt} (h : Mimics ctx ctx' stmt stmt')
    (h' : Mimics ctx' ctx'' stmt' stmt'') :
    Mimics ctx ctx'' stmt stmt'' :=
  ⟨fun active => (h.exec active).trans (h'.exec active), fun active s => (h.trace active s).trans (h'.trace active s)⟩

theorem seq (h : MimicsAll ctx ctx' stmts stmts') : Mimics ctx ctx' (.seq stmts) (.seq stmts') := by
  refine ⟨fun active => ?_, fun active s => ?_⟩
  · rw [Run.exec_seq_eq, Run.exec_seq_eq, h.exec]
  · rw [Run.trace_seq, Run.trace_seq, h.trace]

theorem block_seq (h : MimicsAll ctx ctx' stmts stmts') : Mimics ctx ctx' (.block stmts) (.seq stmts') := by
  refine ⟨fun active => ?_, fun active s => ?_⟩
  · rw [Run.exec_block, Run.exec_seq_eq, h.exec]
  · rw [Run.trace_block, Run.trace_seq, h.trace]

theorem block (h : MimicsAll ctx ctx' stmts stmts') : Mimics ctx ctx' (.block stmts) (.block stmts') := by
  refine ⟨fun active => ?_, fun active s => ?_⟩
  · rw [Run.exec_block, Run.exec_block, h.exec]
  · rw [Run.trace_block, Run.trace_block, h.trace]

theorem comment {text : String} (h : Mimics ctx ctx' stmt stmt') :
    Mimics ctx ctx' (.comment text stmt) (.comment text stmt') := by
  refine ⟨fun active => ?_, fun active s => ?_⟩
  · rw [Run.exec_comment, Run.exec_comment, h.exec]
  · rw [Run.trace_comment, Run.trace_comment, h.trace]

theorem branch {c : Exp} {ifTrue ifTrue' ifFalse ifFalse' : Stmt}
    (hc : ∀ t, Run.condition ctx t c = Run.condition ctx' t c) (h : Mimics ctx ctx' ifTrue ifTrue')
    (h' : Mimics ctx ctx' ifFalse ifFalse') :
    Mimics ctx ctx' (.branch c ifTrue ifFalse) (.branch c ifTrue' ifFalse') := by
  refine ⟨fun active => ?_, fun active s => ?_⟩
  · simp only [Run.exec, hc, h.exec, h'.exec]
  · simp only [Run.trace, hc, h.exec, h.trace, h'.trace]

theorem loop {iter : Ident} {bound : Exp} (hlimit : ctx.loopLimit = ctx'.loopLimit)
    (hbound : ∀ t, Run.int ctx t bound = Run.int ctx' t bound) (h : Mimics ctx ctx' stmt stmt') :
    Mimics ctx ctx' (.loop iter bound stmt) (.loop iter bound stmt') := by
  have step : ∀ bounds, Run.loopStep ctx iter stmt bounds = Run.loopStep ctx' iter stmt' bounds := by
    intro bounds
    funext k
    simp only [Run.loopStep, h.exec]
  refine ⟨fun active => ?_, fun active s => ?_⟩
  · simp only [Run.exec, hbound, hlimit, h.exec]
  · simp only [Run.trace, hbound, hlimit, step, h.trace]

theorem repeatWhile {c : Exp} (hlimit : ctx.loopLimit = ctx'.loopLimit)
    (hc : ∀ t, Run.condition ctx t c = Run.condition ctx' t c) (h : Mimics ctx ctx' stmt stmt') :
    Mimics ctx ctx' (.repeatWhile c stmt) (.repeatWhile c stmt') := by
  have test : Run.loopTest ctx c = Run.loopTest ctx' c := by
    funext live
    simp only [Run.loopTest, hc]
  refine ⟨fun active => ?_, fun active s => ?_⟩
  · simp only [Run.exec, hlimit, hc, h.exec]
  · simp only [Run.trace, hlimit, test, h.exec, h.trace]

/-- Statements without others in them. -/
theorem of_events (hexec : ∀ active, Run.exec ctx stmt active = Run.exec ctx' stmt active)
    (htrace : ∀ active s, active ≠ [] →
      Run.trace Run.writesAt ctx stmt active s = Run.trace Run.writesAt ctx' stmt active s) :
    Mimics ctx ctx' stmt stmt := by
  refine ⟨hexec, fun active s => ?_⟩
  by_cases h : active = []
  · rw [h, Run.trace_nil, Run.trace_nil]
  · exact htrace active s h

end Mimics

/-! ### Other surroundings -/

/-- The host gives the scalars that code uses the same values. -/
def Stmt.Agrees (stmt : Stmt) (captured captured' : Table Value) : Prop :=
  ∀ x, ⟨x, .scalar⟩ ∈ stmt.mentions → captured[x]? = captured'[x]?

/-- The context with other scalars from the host. -/
def GroupContext.capturing (ctx : GroupContext) (captured : Table Value) : GroupContext := { ctx with captured }

section
open Run GroupState
variable {captured : Table Value} {x y z : Exp} {t : Nat}

theorem scope_capturing {s : GroupState} {y : Ident} (h : ctx.captured[y]? = captured[y]?) :
    s.scope (ctx.capturing captured) t y = s.scope ctx t y := by
  unfold GroupState.scope GroupContext.capturing
  rw [h]

theorem Exp.mem_mentions {x : Exp} {y : Ident} : ⟨y, .scalar⟩ ∈ x.mentions ↔ y ∈ x.occurrences := by
  unfold Exp.mentions
  simp

theorem value_capturing (h : ∀ y ∈ x.occurrences, ctx.captured[y]? = captured[y]?) :
    Run.value (ctx.capturing captured) t x = Run.value ctx t x := by
  unfold Run.value
  congr
  funext s
  exact Exp.eval_congr fun y hy => scope_capturing (h y hy)

theorem int_capturing (h : ∀ y ∈ x.occurrences, ctx.captured[y]? = captured[y]?) :
    Run.int (ctx.capturing captured) t x = Run.int ctx t x := by
  unfold Run.int Exp.evalInt
  congr
  funext s
  rw [Exp.eval_congr fun y hy => scope_capturing (h y hy)]

theorem condition_capturing (h : ∀ y ∈ x.occurrences, ctx.captured[y]? = captured[y]?) :
    Run.condition (ctx.capturing captured) t x = Run.condition ctx t x := by
  unfold Run.condition Exp.evalBool
  congr
  funext s
  rw [Exp.eval_congr fun y hy => scope_capturing (h y hy)]

theorem writeOf_capturing {view : View} (hx : ∀ z ∈ x.occurrences, ctx.captured[z]? = captured[z]?)
    (hy : ∀ z ∈ y.occurrences, ctx.captured[z]? = captured[z]?) :
    Run.writeOf (ctx.capturing captured) view x y t = Run.writeOf ctx view x y t := by
  funext s
  unfold Run.writeOf Exp.evalInt
  rw [Exp.eval_congr fun z hz => scope_capturing (hx z hz), Exp.eval_congr fun z hz => scope_capturing (hy z hz)]

mutual

/-- Code does the same where the host gives the scalars that it uses the same values. -/
theorem mimics_of_agrees : ∀ {stmt : Stmt}, stmt.Agrees ctx.captured captured →
    Mimics (ctx.capturing captured) ctx stmt stmt
  | .seq stmts, h => .seq (mimicsAll_of_agrees fun y hy => h y (by simpa [Stmt.mentions] using hy))
  | .comment text body, h => .comment (mimics_of_agrees fun y hy => h y (by simpa [Stmt.mentions] using hy))
  | .branch c ifTrue ifFalse, h =>
    .branch (fun t => condition_capturing fun y hy => h y (by simp [Stmt.mentions, Exp.mem_mentions, hy]))
      (mimics_of_agrees fun y hy => h y (by simp [Stmt.mentions, hy]))
      (mimics_of_agrees fun y hy => h y (by simp [Stmt.mentions, hy]))
  | .loop iter bound body, h =>
    .loop rfl (fun t => int_capturing fun y hy => h y (by simp [Stmt.mentions, Exp.mem_mentions, hy]))
      (mimics_of_agrees fun y hy => h y (by simp [Stmt.mentions, hy]))
  | .repeatWhile c body, h =>
    .repeatWhile rfl (fun t => condition_capturing fun y hy => h y (by simp [Stmt.mentions, Exp.mem_mentions, hy]))
      (mimics_of_agrees fun y hy => h y (by simp [Stmt.mentions, hy]))
  | .skip, _ | .declare .., _ | .query .., _ | .barrier _, _ | .memFence _, _ => by
    refine .of_events (fun active => ?_) fun active s hne => ?_
    · simp only [Run.exec] <;> rfl
    · simp only [Run.trace, Run.writesAt]
  | .declareArray name type length space, h => by
    have hlength : ∀ t, Run.int (ctx.capturing captured) t length = Run.int ctx t length := fun t =>
      int_capturing fun y hy => h y (by simp [Stmt.mentions, Exp.mem_mentions, hy])
    refine .of_events (fun active => ?_) fun active s hne => ?_
    · simp only [Run.exec, Run.declareArray, hlength]
    · simp only [Run.trace, Run.writesAt]
  | .set name x, h => by
    have hx : ∀ t, Run.value (ctx.capturing captured) t x = Run.value ctx t x := fun t =>
      value_capturing fun y hy => h y (by simp [Stmt.mentions, Exp.mem_mentions, hy])
    refine .of_events (fun active => ?_) fun active s hne => ?_
    · simp only [Run.exec, hx]
    · simp only [Run.trace, Run.writesAt]
  | .read dest view index, h => by
    have hindex : ∀ t, Run.int (ctx.capturing captured) t index = Run.int ctx t index := fun t =>
      int_capturing fun y hy => h y (by simp [Stmt.mentions, Exp.mem_mentions, hy])
    refine .of_events (fun active => ?_) fun active s hne => ?_
    · simp only [Run.exec, hindex]
      rfl
    · simp only [Run.trace, Run.writesAt]
  | .write view index x, h => by
    have mindex : ∀ y ∈ index.occurrences, ctx.captured[y]? = captured[y]? := fun y hy =>
      h y (by simp [Stmt.mentions, Exp.mem_mentions, hy])
    have mx : ∀ y ∈ x.occurrences, ctx.captured[y]? = captured[y]? := fun y hy =>
      h y (by simp [Stmt.mentions, Exp.mem_mentions, hy])
    have turn : ∀ t, (do
        let i ← Run.int (ctx.capturing captured) t index
        let v ← Run.value (ctx.capturing captured) t x
        Run.store t view i v
        Run.track (ctx.capturing captured) t view i true : Run Unit) = (do
        let i ← Run.int ctx t index
        let v ← Run.value ctx t x
        Run.store t view i v
        Run.track ctx t view i true) := by
      intro t
      rw [int_capturing mindex, value_capturing mx]
      rfl
    refine .of_events (fun active => ?_) fun active s hne => ?_
    · simp only [Run.exec, turn]
    · have events : Run.writeOf (ctx.capturing captured) view index x = Run.writeOf ctx view index x :=
        funext fun t => writeOf_capturing mindex mx
      simp only [Run.trace, Run.writesAt, turn, events]
  -- A step evaluates expressions over scalars that agree, and does the rest alike.
  | .update op old view index x, h => by
    have hindex : ∀ t, Run.int (ctx.capturing captured) t index = Run.int ctx t index := fun t =>
      int_capturing fun y hy => h y (by simp [Stmt.mentions, Exp.mem_mentions, hy])
    have hx : ∀ t, Run.value (ctx.capturing captured) t x = Run.value ctx t x := fun t =>
      value_capturing fun y hy => h y (by simp [Stmt.mentions, Exp.mem_mentions, hy])
    refine .of_events (fun active => ?_) fun active s hne => ?_
    · simp only [Run.exec, Run.update, hindex, hx]
    · simp only [Run.trace, Run.writesAt]
  | .compareSwap old view index expected desired, h => by
    have hindex : ∀ t, Run.int (ctx.capturing captured) t index = Run.int ctx t index := fun t =>
      int_capturing fun y hy => h y (by simp [Stmt.mentions, Exp.mem_mentions, hy])
    have hexpected : ∀ t, Run.value (ctx.capturing captured) t expected = Run.value ctx t expected := fun t =>
      value_capturing fun y hy => h y (by simp [Stmt.mentions, Exp.mem_mentions, hy])
    have hdesired : ∀ t, Run.value (ctx.capturing captured) t desired = Run.value ctx t desired := fun t =>
      value_capturing fun y hy => h y (by simp [Stmt.mentions, Exp.mem_mentions, hy])
    refine .of_events (fun active => ?_) fun active s hne => ?_
    · simp only [Run.exec, Run.compareSwap, hindex, hexpected, hdesired]
    · simp only [Run.trace, Run.writesAt]

theorem mimicsAll_of_agrees : ∀ {stmts : List Stmt}, (Stmt.seq stmts).Agrees ctx.captured captured →
    MimicsAll (ctx.capturing captured) ctx stmts stmts
  | [], _ => .nil
  | stmt :: stmts, h =>
    .cons (mimics_of_agrees fun y hy => h y (by simp [Stmt.mentions, Stmt.mentionsAll, hy]))
      (mimicsAll_of_agrees fun y hy => h y (by
        rw [Stmt.mentions] at *
        simp [Stmt.mentionsAll, hy]))

end
end

/-! ### Code without shared arrays -/

mutual

/-- Where no shared array is declared, hoisting changes nothing. -/
theorem mimics_dropShared : ∀ {stmt : Stmt}, stmt.sharedArrays = [] → Mimics ctx ctx stmt.dropShared stmt
  | .seq stmts, h => by
    rw [Stmt.sharedArrays] at h
    rw [Stmt.dropShared]
    exact .block_seq (mimicsAll_dropShared h)
  | .comment text body, h => by
    rw [Stmt.sharedArrays] at h
    rw [Stmt.dropShared]
    exact .comment (mimics_dropShared h)
  | .branch c ifTrue ifFalse, h => by
    rw [Stmt.sharedArrays, List.append_eq_nil_iff] at h
    rw [Stmt.dropShared]
    exact .branch (fun _ => rfl) (mimics_dropShared h.1) (mimics_dropShared h.2)
  | .loop iter bound body, h => by
    rw [Stmt.sharedArrays] at h
    rw [Stmt.dropShared]
    exact .loop rfl (fun _ => rfl) (mimics_dropShared h)
  | .repeatWhile c body, h => by
    rw [Stmt.sharedArrays] at h
    rw [Stmt.dropShared]
    exact .repeatWhile rfl (fun _ => rfl) (mimics_dropShared h)
  | .declareArray name type length space, h => by
    rw [Stmt.dropShared]
    cases space with
    | shared =>
      rw [Stmt.sharedArrays] at h
      cases h
    | _ => exact .refl ctx _
  | .skip, _ | .declare .., _ | .set .., _ | .read .., _ | .write .., _ | .query .., _ | .barrier _, _
  | .memFence _, _ | .update .., _ | .compareSwap .., _ => by
    rw [Stmt.dropShared] <;> first | exact .refl ctx _ | simp

theorem mimicsAll_dropShared : ∀ {stmts : List Stmt}, Stmt.sharedArraysAll stmts = [] →
    MimicsAll ctx ctx (Stmt.dropSharedAll stmts) stmts
  | [], _ => by
    rw [Stmt.dropSharedAll]
    exact .nil
  | stmt :: stmts, h => by
    rw [Stmt.sharedArraysAll, List.append_eq_nil_iff] at h
    rw [Stmt.dropSharedAll]
    exact .cons (mimics_dropShared h.1) (mimicsAll_dropShared h.2)

end

/-- Code in which nothing is hoisted. -/
theorem mimics_block_dropShared (h : stmt.sharedArrays = []) : Mimics ctx ctx (.block [stmt.dropShared]) stmt := by
  refine ⟨fun active => ?_, fun active s => ?_⟩
  · rw [Run.exec_block, Run.execAll_singleton, (mimics_dropShared h).exec]
  · rw [Run.trace_block, Run.traceAll_singleton, (mimics_dropShared h).trace]

end SegKernel
