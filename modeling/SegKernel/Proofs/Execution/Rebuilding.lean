import SegKernel.Proofs.Evaluation.Rebuilding
import SegKernel.Proofs.Execution.Launching
import SegKernel.Proofs.Schedules.Launches

/-! Kernel code that is built anew by the constructors that fold. Where a launch of the original ends
    without a fault, the rebuilt code ends with the same memory and the same statistics. -/

namespace SegKernel
namespace Run
variable {α β : Type}

/-- Where the first run ends without a fault, the second one ends with the same result, in the same
    state. -/
def Follows (r r' : Run α) : Prop := ∀ s a s', r s = .ok a s' → r' s = .ok a s'

/-- All threads are asked something else, of which the answer follows from the first one. -/
theorem ask_map {f : Nat → Run α} {g : Nat → Run β} {φ : α → β}
    (h : ∀ t s a s', f t s = .ok a s' → g t s = .ok (φ a) s') :
    ∀ {active : List Nat} {answers : List (Nat × α)} {s s' : GroupState}, ask active f s = .ok answers s' →
      ask active g s = .ok (answers.map fun a => (a.1, φ a.2)) s'
  | [], answers, s, s', hask => by
    rw [ask, List.mapM_nil] at hask
    obtain ⟨rfl, rfl⟩ := pure_eq_ok.mp hask
    rfl
  | t :: ts, answers, s, s', hask => by
    simp only [ask, List.mapM_cons, bind_eq_ok, pure_eq_ok] at hask ⊢
    obtain ⟨_, s₁, ⟨a, _, ha, rfl, rfl⟩, rest, s₂, hrest, rfl, rfl⟩ := hask
    exact ⟨_, s₁, ⟨φ a, s₁, h t s a s₁ ha, rfl, rfl⟩, _, s', ask_map h hrest, rfl, rfl⟩

namespace Follows

theorem refl (r : Run α) : Follows r r := fun _ _ _ h => h

theorem trans {r₁ r₂ r₃ : Run α} (h : Follows r₁ r₂) (h' : Follows r₂ r₃) : Follows r₁ r₃ :=
  fun s a s' hrun => h' s a s' (h s a s' hrun)

theorem bind {r r' : Run α} {q q' : α → Run β} (h : Follows r r') (h' : ∀ a, Follows (q a) (q' a)) :
    Follows (r >>= q) (r' >>= q') := by
  intro s b s' hrun
  obtain ⟨a, s₁, hr, hq⟩ := bind_eq_ok.mp hrun
  exact bind_eq_ok.mpr ⟨a, s₁, h s a s₁ hr, h' a s₁ b s' hq⟩

theorem evaluate {f g : GroupState → Except Fault α} (h : ∀ s a, f s = .ok a → g s = .ok a) :
    Follows (evaluate f) (evaluate g) := by
  intro s a s' hrun
  obtain ⟨ha, rfl⟩ := evaluate_eq_ok.mp hrun
  exact evaluate_eq_ok.mpr ⟨h s' a ha, rfl⟩

theorem ask {f f' : Nat → Run α} (h : ∀ t, Follows (f t) (f' t)) (active : List Nat) :
    Follows (ask active f) (ask active f') := by
  intro s answers s' hask
  have := ask_map (φ := id) h hask
  rwa [show (answers.map fun a => (a.1, id a.2)) = answers from List.map_id answers] at this

/-- All threads take their turns. -/
theorem forM {f f' : Nat → Run Unit} (h : ∀ t, Follows (f t) (f' t)) :
    ∀ active : List Nat, Follows (active.forM f) (active.forM f')
  | [] => refl _
  | t :: ts => (h t).bind fun _ => forM h ts

theorem countUp {body body' : Nat → Run Unit} (h : ∀ k, Follows (body k) (body' k)) :
    ∀ count first : Nat, Follows (countUp body count first) (countUp body' count first)
  | 0, _ => refl _
  | n + 1, k => (h k).bind fun _ => countUp h n (k + 1)

theorem whileLive {test test' : List Nat → Run (List Nat)} {body body' : List Nat → Run Unit}
    (htest : ∀ live, Follows (test live) (test' live)) (hbody : ∀ live, Follows (body live) (body' live)) :
    ∀ (limit : Nat) (live : List Nat), Follows (whileLive test body limit live) (whileLive test' body' limit live)
  | 0, live => (htest live).bind fun _ => refl _
  | n + 1, live => by
    refine (htest live).bind fun live' => ?_
    split
    · exact refl _
    · exact (hbody live').bind fun _ => whileLive htest hbody n live'

variable {x y : Exp} (ctx : GroupContext) (t : Nat)

theorem value (h : x.Refines y) : Follows (value ctx t x) (value ctx t y) := evaluate fun _ _ => h _ _

theorem int (h : x.Refines y) : Follows (int ctx t x) (int ctx t y) := evaluate fun _ _ => h.evalInt

theorem condition (h : x.Refines y) : Follows (condition ctx t x) (condition ctx t y) :=
  evaluate fun _ _ => h.evalBool

theorem declareArray (name : Ident) (type : ScalarType) (space : Space) (h : x.Refines y) :
    Follows (declareArray ctx t name type x space) (declareArray ctx t name type y space) :=
  (int ctx t h).bind fun _ => refl _

theorem update (op : AtomicOp) (old : Ident) (view : View) {index index' : Exp} (hindex : index.Refines index')
    (h : x.Refines y) : Follows (update ctx t op old view index x) (update ctx t op old view index' y) :=
  (int ctx t hindex).bind fun _ => (value ctx t h).bind fun _ => refl _

theorem compareSwap (old : Ident) (view : View) {index index' expected expected' : Exp}
    (hindex : index.Refines index') (hexpected : expected.Refines expected') (h : x.Refines y) :
    Follows (compareSwap ctx t old view index expected x) (compareSwap ctx t old view index' expected' y) :=
  (int ctx t hindex).bind fun _ => (value ctx t hexpected).bind fun _ => (value ctx t h).bind fun _ => refl _

end Follows
end Run

namespace Stmt

/-- Under every mask, wherever the first statement ends without a fault, the second one ends in the same
    state. -/
def Refines (a b : Stmt) : Prop := ∀ ctx active, Run.Follows (Run.exec ctx a active) (Run.exec ctx b active)

theorem Refines.refl (a : Stmt) : a.Refines a := fun _ _ => .refl _

theorem Refines.trans {a b c : Stmt} (h : a.Refines b) (h' : b.Refines c) : a.Refines c :=
  fun ctx active => (h ctx active).trans (h' ctx active)

/-- A statement without active threads does nothing. -/
theorem refines_of_active {a b : Stmt}
    (h : ∀ ctx active, active ≠ [] → Run.Follows (Run.exec ctx a active) (Run.exec ctx b active)) : a.Refines b := by
  intro ctx active
  by_cases hne : active = []
  · rw [hne, Run.exec_nil, Run.exec_nil]
    exact .refl _
  · exact h ctx active hne

/-! ### The branches that are folded -/

/-- A branch whose condition is constant is taken by all threads, or by none. -/
theorem when_refines (c : Exp) (body : Stmt) : (branch c body skip).Refines (when c body) := by
  refine refines_of_active fun ctx active hne s _ s' hrun => ?_
  obtain ⟨answers, s₁, hask, htrue, hfalse⟩ := Run.exec_branch_ok hne hrun
  obtain ⟨-, hfst, hall⟩ := Run.ask_eq_ok hask
  rw [Run.exec_skip] at hfalse
  obtain ⟨-, rfl⟩ := Run.pure_eq_ok.mp hfalse
  have known : ∀ b, c.bool? = some b → ∀ p ∈ answers, p.2 = b := fun b hb p hp =>
    Exp.IsBool.unique (Exp.evalBool_eq_ok.mp (hall p hp)) (Exp.eval_of_bool? hb)
  unfold when
  split
  · rename_i hb
    rwa [Run.those_eq_of_forall (by simpa using known true hb), hfst] at htrue
  · rename_i hb
    rw [Run.those_eq_nil_of_forall (by simpa using known false hb), Run.exec_nil] at htrue
    rwa [Run.exec_skip]
  · exact hrun

/-- The sides of a branch change places under the negation of its condition. -/
theorem whenNot_refines (c : Exp) (body : Stmt) : (branch c skip body).Refines (whenNot c body) := by
  refine .trans (refines_of_active fun ctx active hne s _ s' hrun => ?_) (when_refines c.negation body)
  obtain ⟨answers, s₁, hask, htrue, hfalse⟩ := Run.exec_branch_ok hne hrun
  rw [Run.exec_skip] at htrue
  obtain ⟨-, rfl⟩ := Run.pure_eq_ok.mp htrue
  have hnegated : Run.ask active (fun t => Run.condition ctx t c.negation) s₁ =
      .ok (answers.map fun a => (a.1, !a.2)) s₁ := by
    refine Run.ask_map (fun t s a s' h => ?_) hask
    obtain ⟨ha, rfl⟩ := Run.condition_eq_ok.mp h
    exact Run.condition_eq_ok.mpr ⟨(Exp.IsBool.negation (Exp.evalBool_eq_ok.mp ha)).evalBool, rfl⟩
  rw [Run.exec_branch hne]
  refine Run.bind_eq_ok.mpr ⟨_, s₁, hnegated, Run.bind_eq_ok.mpr ⟨(), s', ?_, ?_⟩⟩
  · have same : Run.those (answers.map fun a => (a.1, !a.2)) id = Run.those answers not := by
      simp [Run.those, List.filter_map, Function.comp_def]
    rwa [same]
  · rw [Run.exec_skip]
    rfl

/-- A branch built by the constructor that is meant for it where one of its sides is empty. -/
def fork (c : Exp) (ifTrue ifFalse : Stmt) : Stmt :=
  match ifTrue, ifFalse with
  | _, skip => when c ifTrue
  | skip, _ => whenNot c ifFalse
  | _, _ => branch c ifTrue ifFalse

theorem fork_refines (c : Exp) (ifTrue ifFalse : Stmt) : (branch c ifTrue ifFalse).Refines (fork c ifTrue ifFalse) := by
  unfold fork
  split
  · exact when_refines c ifTrue
  · exact whenNot_refines c ifFalse
  · exact .refl _

/-! ### Rebuilding -/

mutual

/-- The statement built anew from its innermost parts on. -/
def built : Stmt → Stmt
  | skip => skip
  | seq stmts => block (builtAll stmts)
  | comment text body => comment text body.built
  | declare name type volatile => declare name type volatile
  | declareArray name type length space => declareArray name type length.built space
  | set name x => set name x.built
  | read dest view index => read dest view index.built
  | write view index x => write view index.built x.built
  | branch c ifTrue ifFalse => fork c.built ifTrue.built ifFalse.built
  | loop iter bound body => loop iter bound.built body.built
  | repeatWhile c body => repeatWhile c.built body.built
  | query which dest => query which dest
  | barrier fence => barrier fence
  | memFence fence => memFence fence
  | update op old view index x => update op old view index.built x.built
  | compareSwap old view index expected desired =>
    compareSwap old view index.built expected.built desired.built

def builtAll : List Stmt → List Stmt
  | [] => []
  | s :: ss => s.built :: builtAll ss

end

/-! ### Refined parts -/

section
open Run

theorem Refines.branch {c c' : Exp} {ifTrue ifTrue' ifFalse ifFalse' : Stmt} (hc : c.Refines c')
    (htrue : ifTrue.Refines ifTrue') (hfalse : ifFalse.Refines ifFalse') :
    (Stmt.branch c ifTrue ifFalse).Refines (.branch c' ifTrue' ifFalse') := by
  refine refines_of_active fun ctx active hne => ?_
  rw [exec_branch hne, exec_branch hne]
  exact (Follows.ask (fun t => .condition ctx t hc) active).bind fun answers =>
    (htrue ctx _).bind fun _ => hfalse ctx _

theorem Refines.loop (iter : Ident) {bound bound' : Exp} {body body' : Stmt} (hbound : bound.Refines bound')
    (hbody : body.Refines body') : (Stmt.loop iter bound body).Refines (.loop iter bound' body') := by
  refine refines_of_active fun ctx active hne => ?_
  rw [exec_loop hne, exec_loop hne]
  refine (Follows.ask (fun t => .int ctx t hbound) active).bind fun bounds => ?_
  have rounds := Follows.countUp (fun k => (Follows.refl
    ((those bounds fun b => k < b.toInt).forM fun t => modify fun s => s.bind t iter (.i64 (Int64.ofNat k)))).bind
      fun _ => hbody ctx (those bounds fun b => k < b.toInt)) (trips bounds) 0
  dsimp only
  split
  · exact (Follows.refl _).bind fun _ => rounds
  · exact rounds

theorem Refines.repeatWhile {c c' : Exp} {body body' : Stmt} (hc : c.Refines c') (hbody : body.Refines body') :
    (Stmt.repeatWhile c body).Refines (.repeatWhile c' body') := by
  refine refines_of_active fun ctx active hne => ?_
  rw [exec_repeatWhile hne, exec_repeatWhile hne]
  have test : ∀ live, Follows (loopTest ctx c live) (loopTest ctx c' live) := fun live =>
    (Follows.ask (fun t => .condition ctx t hc) live).bind fun _ => .refl _
  exact .whileLive test (fun live => hbody ctx live) _ _

mutual

/-- Rebuilt code does what the original does. -/
theorem refines_built (stmt : Stmt) : stmt.Refines stmt.built := by
  -- Only a branch may change its form, if its condition has become a literal.
  cases stmt with
  | seq stmts =>
    intro ctx active
    rw [built, exec_seq_eq, exec_block]
    exact execAll_follows_built stmts ctx active
  | comment text body =>
    intro ctx active
    rw [built, exec_comment, exec_comment]
    exact refines_built body ctx active
  | branch c ifTrue ifFalse =>
    rw [built]
    exact (Refines.branch c.refines_built (refines_built ifTrue) (refines_built ifFalse)).trans (fork_refines _ _ _)
  | loop iter bound body =>
    rw [built]
    exact Refines.loop iter bound.refines_built (refines_built body)
  | repeatWhile c body =>
    rw [built]
    exact Refines.repeatWhile c.refines_built (refines_built body)
  | declareArray name type length space =>
    refine refines_of_active fun ctx active hne => ?_
    rw [built, exec, exec, if_neg (by simpa using hne), if_neg (by simpa using hne)]
    exact .forM (fun t => .declareArray ctx t name type space length.refines_built) active
  | set name x =>
    refine refines_of_active fun ctx active hne => ?_
    rw [built, exec, exec, if_neg (by simpa using hne), if_neg (by simpa using hne)]
    exact .forM (fun t => (Follows.value ctx t x.refines_built).bind fun _ => .refl _) active
  | read dest view index =>
    refine refines_of_active fun ctx active hne => ?_
    rw [built, exec, exec, if_neg (by simpa using hne), if_neg (by simpa using hne)]
    exact .forM (fun t => (Follows.int ctx t index.refines_built).bind fun _ => .refl _) active
  | write view index x =>
    refine refines_of_active fun ctx active hne => ?_
    rw [built, exec, exec, if_neg (by simpa using hne), if_neg (by simpa using hne)]
    exact .forM (fun t => (Follows.int ctx t index.refines_built).bind fun _ =>
      (Follows.value ctx t x.refines_built).bind fun _ => .refl _) active
  | update op old view index x =>
    refine refines_of_active fun ctx active hne => ?_
    rw [built, exec, exec, if_neg (by simpa using hne), if_neg (by simpa using hne)]
    exact .forM (fun t => .update ctx t op old view index.refines_built x.refines_built) active
  | compareSwap old view index expected desired =>
    refine refines_of_active fun ctx active hne => ?_
    rw [built, exec, exec, if_neg (by simpa using hne), if_neg (by simpa using hne)]
    exact .forM (fun t => .compareSwap ctx t old view index.refines_built expected.refines_built
      desired.refines_built) active
  | skip => exact .refl _
  | declare name type volatile => exact .refl _
  | query which dest => exact .refl _
  | barrier fence => exact .refl _
  | memFence fence => exact .refl _

theorem execAll_follows_built (stmts : List Stmt) (ctx : GroupContext) (active : List Nat) :
    Follows (execAll ctx stmts active) (execAll ctx (builtAll stmts) active) := by
  cases stmts with
  | nil => exact .refl _
  | cons s ss =>
    rw [builtAll, execAll_cons, execAll_cons]
    exact (refines_built s ctx active).bind fun _ => execAll_follows_built ss ctx active

end
end
end Stmt

/-! ### Launches -/

/-- The kernel with its body built anew. -/
def Kernel.built (k : Kernel) : Kernel := { k with body := k.body.built }

/-- The program with all its kernels built anew. -/
def Program.built (p : Program) : Program := { p with kernels := p.kernels.map Kernel.built }

namespace Device

theorem runGroup_refined {a b : Stmt} (h : a.Refines b) (ctx : GroupContext) (schedule : Schedule) :
    Follows (runGroup ctx schedule a) (runGroup ctx schedule b) := by
  intro s s' hrun
  unfold runGroup at *
  dsimp only at *
  split at hrun
  · rename_i u t hexec
    cases hrun
    rw [h ctx _ _ _ _ hexec]
  · cases hrun

theorem runGroups_refined {a b : Stmt} (h : a.Refines b) (ctx : GroupContext) (schedule : Schedule) :
    ∀ n g : Nat, Follows (runGroups ctx schedule a n g) (runGroups ctx schedule b n g)
  | 0, _ => fun _ _ h => h
  | n + 1, g => (runGroup_refined h { ctx with group := Int64.ofNat g } schedule).bind
      (runGroups_refined h ctx schedule n (g + 1))

/-- A launch of a rebuilt kernel ends with the memory and the statistics of the original. -/
theorem runKernel_built (d : Device) (host : Scope) (k : Kernel) :
    Follows (d.runKernel host k) (d.runKernel host k.built) := by
  intro s s' hrun
  unfold runKernel at *
  obtain ⟨ctx, s₁, hctx, hrest⟩ := Run.bind_eq_ok.mp hrun
  have groups := runGroups_refined k.body.refines_built ctx d.schedule ctx.numGroups.toInt.toNat 0
  exact Run.bind_eq_ok.mpr ⟨ctx, s₁, hctx, (groups.bind fun _ _ h => h) s₁ s' hrest⟩

theorem hostEnv_built (d : Device) (p : Program) : d.hostEnv p.built = d.hostEnv p := by
  have : constants p.built = constants p := List.flatMap_map ..
  rw [hostEnv, hostEnv, this]
  rfl

theorem runProgram_built (d : Device) (p : Program) : Follows (d.runProgram p) (d.runProgram p.built) := by
  have kernels : ∀ (host : Scope) (ks : List Kernel),
      Follows (ks.forM (d.runKernel host)) ((ks.map Kernel.built).forM (d.runKernel host)) := by
    intro host ks
    induction ks with
    | nil => exact fun _ _ h => h
    | cons k ks ih => exact (runKernel_built d host k).bind ih
  have allocations : Follows (p.allocations.forM (allocate ((d.hostEnv p)[·]?)))
      (p.allocations.forM (allocate ((d.hostEnv p)[·]?))) := fun _ _ h => h
  unfold runProgram
  rw [hostEnv_built]
  exact allocations.bind (kernels ((d.hostEnv p)[·]?) p.kernels)

/-- A program with rebuilt kernels ends as the original does. -/
theorem run_built {d d' : Device} {p : Program} {stats : LaunchStats} (hrun : d.run p = (.ok stats, d')) :
    d.run p.built = (.ok stats, d') := by
  have follows := runProgram_built d p { global := d.global }
  unfold run at hrun ⊢
  split at hrun
  · rename_i u s hs
    rw [follows s hs]
    cases hrun
    rfl
  · cases hrun

/-- Building expressions and kernel bodies with the constructors that fold preserves what they mean: every
    value of an expression, and the end of every launch. -/
theorem building_preserves_meaning :
    (∀ (x : Exp) (scope : Scope) (v : Value), x.eval scope = .ok v → x.built.eval scope = .ok v) ∧
      ∀ (d : Device) (host : Scope) (k : Kernel) (s s' : Progress),
        d.runKernel host k s = .ok () s' → d.runKernel host k.built s = .ok () s' :=
  ⟨Exp.refines_built, runKernel_built⟩

/-- Each thread adds zero, negates a flag twice, and steps over a branch that is never taken. -/
def roundabout : Kernel where
  name := "roundabout"
  body := .seq [
    .seq [.declare "t" .i64 false, .skip, .query .localId "t"],
    .declare "flag" .bool false,
    .set "flag" (.unary .not (.unary .not (.compare .lt (.var "t") (.var "n")))),
    .branch (.binary .logOr (.unary .not (.var "flag")) (.bool false)) .skip
      (.write ⟨"out", .i64, .global, false⟩ (.binary .add (.int 0) (.var "t"))
        (.binary .mul (.var "t") (.binary .sub (.int 7) (.int 4)))),
    .branch (.compare .lt (.int 2) (.int 1)) (.set "t" (.bool true)) .skip,
    .barrier .global]
  captures := [.memory "out", .scalar "n" .i64]
  numGroups := .int 1
  groupSize := .int 4
  failureTolerant := false

def roundaboutHost : Scope := fun name => if name = "n" then some (.i64 3) else none

def roundaboutStart : Progress := ⟨({} : Memory).insert "out" (.zeroed .i64 4), {}⟩

/-- What is left of the code of `roundabout` computes the same: three threads store three times their number,
    and the last one stores nothing. -/
theorem roundabout_built :
    let d : Device := { wave := 2 }
    roundabout.built.body = .seq [
        .declare "t" .i64 false, .query .localId "t", .declare "flag" .bool false,
        .set "flag" (.compare .lt (.var "t") (.var "n")),
        .branch (.var "flag")
          (.write ⟨"out", .i64, .global, false⟩ (.var "t") (.binary .mul (.var "t") (.int 3))) .skip,
        .barrier .global] ∧
      ∃ s, d.runKernel roundaboutHost roundabout roundaboutStart = .ok () s ∧
        d.runKernel roundaboutHost roundabout.built roundaboutStart = .ok () s ∧
        s.global["out"]?.map Buffer.values = some [.i64 0, .i64 3, .i64 6, .i64 0] ∧ s.stats = ⟨1, 1, 0⟩ := by
  refine ⟨rfl, ?_⟩
  have hend : (reached? (({ wave := 2 } : Device).runKernel roundaboutHost roundabout roundaboutStart)).map
      (fun s => (s.global["out"]?.map Buffer.values, s.stats)) =
        some (some [.i64 0, .i64 3, .i64 6, .i64 0], ⟨1, 1, 0⟩) := by decide +kernel
  obtain ⟨s, hs, hend⟩ := Option.map_eq_some_iff.mp hend
  obtain ⟨hvalues, hstats⟩ := Prod.mk.inj hend
  have hrun := eq_ok_of_reached? hs
  exact ⟨s, hrun, building_preserves_meaning.2 _ _ _ _ s hrun, hvalues, hstats⟩

end Device

/-! ## The limit of loops

The limit of a device on the rounds of a loop. A run that keeps to a limit is the same under every
higher one. -/

/-- The same launch on a device with another limit. -/
def GroupContext.withLimit (ctx : GroupContext) (limit : Nat) : GroupContext := { ctx with loopLimit := limit }

namespace Run
variable {ctx : GroupContext} {low high : Nat}

theorem whileLive_follows_limit {test : List Nat → Run (List Nat)} {body body' : List Nat → Run Unit}
    (hbody : ∀ live, Follows (body live) (body' live)) :
    ∀ {low high : Nat}, low ≤ high → ∀ live : List Nat,
      Follows (whileLive test body low live) (whileLive test body' high live)
  | 0, high, _, live => by
    cases high with
    | zero => exact .whileLive (fun _ => .refl _) hbody 0 live
    | succ high =>
      refine (Follows.refl (test live)).bind fun live' => ?_
      split
      · exact .refl _
      · exact fun s a s' h => absurd h (by simp [throw_ne_ok])
  | low + 1, high + 1, hle, live => by
    refine (Follows.refl (test live)).bind fun live' => ?_
    split
    · exact .refl _
    · exact (hbody live').bind fun _ => whileLive_follows_limit hbody (Nat.le_of_succ_le_succ hle) live'

section
variable {active : List Nat} {body : Stmt}

theorem loop_follows_limit (hne : active ≠ []) (h : low ≤ high) (iter : Ident) (bound : Exp)
    (hbody : ∀ A, Follows (exec (ctx.withLimit low) body A) (exec (ctx.withLimit high) body A)) :
    Follows (exec (ctx.withLimit low) (.loop iter bound body) active)
      (exec (ctx.withLimit high) (.loop iter bound body) active) := by
  rw [exec_loop hne, exec_loop hne]
  refine (Follows.refl (ask active fun t => int ctx t bound)).bind fun bounds => ?_
  dsimp only
  split
  · exact fun s a s' hs => absurd hs (by simp [throw_ne_ok, bind_eq_ok])
  · have hhigh : ¬(ctx.withLimit high).loopLimit < trips bounds := Nat.not_lt.mpr (Nat.le_trans (Nat.not_lt.mp ‹_›) h)
    rw [if_neg hhigh]
    exact .countUp (fun k => (Follows.refl _).bind fun _ => hbody _) _ _

theorem repeatWhile_follows_limit (hne : active ≠ []) (h : low ≤ high) (c : Exp)
    (hbody : ∀ A, Follows (exec (ctx.withLimit low) body A) (exec (ctx.withLimit high) body A)) :
    Follows (exec (ctx.withLimit low) (.repeatWhile c body) active)
      (exec (ctx.withLimit high) (.repeatWhile c body) active) := by
  rw [exec_repeatWhile hne, exec_repeatWhile hne]
  exact whileLive_follows_limit hbody h active

end

mutual

/-- A run that ends without a fault does the same under a higher limit. -/
theorem exec_follows_limit (h : low ≤ high) (stmt : Stmt) (active : List Nat) :
    Follows (exec (ctx.withLimit low) stmt active) (exec (ctx.withLimit high) stmt active) := by
  by_cases hne : active = []
  · rw [hne, exec_nil, exec_nil]
    exact .refl _
  cases stmt with
  | seq stmts =>
    rw [exec_seq_eq, exec_seq_eq]
    exact execAll_follows_limit h stmts active
  | comment text body =>
    rw [exec_comment, exec_comment]
    exact exec_follows_limit h body active
  | branch c ifTrue ifFalse =>
    rw [exec_branch hne, exec_branch hne]
    exact (Follows.refl (ask active fun t => condition ctx t c)).bind fun answers =>
      (exec_follows_limit h ifTrue _).bind fun _ => exec_follows_limit h ifFalse _
  | loop iter bound body => exact loop_follows_limit hne h iter bound fun A => exec_follows_limit h body A
  | repeatWhile c body => exact repeatWhile_follows_limit hne h c fun A => exec_follows_limit h body A
  | _ =>
    rw [exec, exec]
    exact .refl _

theorem execAll_follows_limit (h : low ≤ high) (stmts : List Stmt) (active : List Nat) :
    Follows (execAll (ctx.withLimit low) stmts active) (execAll (ctx.withLimit high) stmts active) := by
  cases stmts with
  | nil =>
    rw [execAll_nil, execAll_nil]
    exact .refl _
  | cons stmt stmts =>
    rw [execAll_cons, execAll_cons]
    exact (exec_follows_limit h stmt active).bind fun _ => execAll_follows_limit h stmts active

end
end Run
end SegKernel
