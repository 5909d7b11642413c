import Mathlib.Tactic.Choose
import SegKernel.Launch.Nest
import SegKernel.Proofs.Convergence.Uniform
import SegKernel.Proofs.Evaluation.Known
import SegKernel.Proofs.Execution.Turns

/-! Steps that all active threads make at once, with the states in which they end: declarations, conditions,
    and the rounds of a loop. -/

namespace SegKernel

/-- All names of scalars but one. -/
def Common.except (name : Ident) : Common := ⟨(· ≠ name), fun _ => False, nofun⟩

/-- Some names of scalars. -/
def Common.scalars (names : List Ident) : Common := ⟨(· ∈ names), fun _ => False, nofun⟩

namespace Keeps
variable {U : Common} {a b : GroupState}

theorem scope (h : Keeps U a b) (ctx : GroupContext) {x : Ident} (hx : U x) (t : Nat) :
    b.scope ctx t x = a.scope ctx t x := by
  rw [GroupState.scope_eq, GroupState.scope_eq, Thread.scope, Thread.scope, h.scalars t x hx]

theorem mono {V : Common} (h : Keeps V a b) (hU : U ≤ V) : Keeps U a b :=
  ⟨h.size, fun t x hx => h.scalars t x (hU.scalar x hx), fun t x hx => h.arrays t x (hU.array x hx)⟩

theorem symm (h : Keeps U a b) : Keeps U b a :=
  ⟨h.size.symm, fun t x hx => (h.scalars t x hx).symm, fun t x hx => (h.arrays t x hx).symm⟩

/-- Expressions over kept names keep their values. -/
theorem eval (h : Keeps U a b) (ctx : GroupContext) {x : Exp} (hx : x.Over U) (t : Nat) :
    x.eval (b.scope ctx t) = x.eval (a.scope ctx t) := Exp.eval_congr fun y hy => h.scope ctx (hx y hy) t

end Keeps

namespace GroupState

/-- Some threads change, each in its own way. -/
def modifyAll (s : GroupState) (active : List Nat) (f : Nat → Thread → Thread) : GroupState :=
  { s with threads := s.threads.mapIdx fun t th => if t ∈ active then f t th else th }

variable {s : GroupState} {active : List Nat} {f g : Nat → Thread → Thread} {t : Nat} {ts : List Nat}

@[simp] theorem size_modifyAll : (s.modifyAll active f).threads.size = s.threads.size := Array.size_mapIdx

theorem thread_modifyAll (ht : t ∈ active) (hsize : t < s.threads.size) :
    (s.modifyAll active f).thread t = f t (s.thread t) := by
  simp [thread, modifyAll, hsize, ht]

theorem modifyAll_modifyAll :
    (s.modifyAll active f).modifyAll active g = s.modifyAll active fun t th => g t (f t th) := by
  unfold modifyAll
  congr 1
  refine Array.ext (by simp) fun i _ _ => ?_
  simp only [Array.getElem_mapIdx]
  split <;> rfl

theorem modifyAll_congr (h : ∀ t ∈ active, t < s.threads.size → f t (s.thread t) = g t (s.thread t)) :
    s.modifyAll active f = s.modifyAll active g := by
  unfold modifyAll
  congr 1
  refine Array.ext (by simp) fun i hi _ => ?_
  rw [Array.size_mapIdx] at hi
  simp only [Array.getElem_mapIdx]
  split
  · have := h i ‹_› hi
    simpa [thread, hi] using this
  · rfl

theorem modifyAll_nil : s.modifyAll [] f = s := by
  have hsame : s.threads.mapIdx (fun _ th => th) = s.threads := Array.ext (by simp) fun i _ _ => by simp
  simp [modifyAll, hsame]

theorem modifyAll_cons (ht : t ∉ ts) : (s.modifyThread t (f t)).modifyAll ts f = s.modifyAll (t :: ts) f := by
  unfold modifyAll modifyThread
  congr 1
  refine Array.ext (by simp) fun i _ _ => ?_
  simp only [Array.getElem_mapIdx, Array.getElem_modify, List.mem_cons]
  by_cases h : i = t
  · subst h
    simp [ht]
  · simp [h, Ne.symm h]

end GroupState

namespace Run
open GroupState
variable {ctx : GroupContext} {s : GroupState} {active : List Nat} {f : Nat → Thread → Thread} {turn : Nat → Run Unit}

section Sequences
variable {s' : GroupState} {stmt : Stmt} {stmts : List Stmt}

/-- What comes after a statement that ends without a fault. -/
theorem execAll_of_ok (h : exec ctx stmt active s = .ok () s') :
    execAll ctx (stmt :: stmts) active s = execAll ctx stmts active s' := by
  rw [execAll_cons, bind_apply, h]

/-- Nothing comes after a fault. -/
theorem execAll_of_error {fault : Fault} (h : exec ctx stmt active s = .error fault s') :
    execAll ctx (stmt :: stmts) active s = .error fault s' := by
  rw [execAll_cons, bind_apply, h]

end Sequences

/-- All threads take their turns, in which each one changes just itself. -/
theorem forM_eq_ok : ∀ {active : List Nat} {s : GroupState}, active.Nodup →
    (∀ t ∈ active, ∀ a : GroupState, a.thread t = s.thread t → turn t a = .ok () (a.modifyThread t (f t))) →
      active.forM turn s = .ok () (s.modifyAll active f)
  | [], s, _, _ => by
    rw [modifyAll_nil]
    rfl
  | t :: ts, s, hnd, h => by
    obtain ⟨ht, hnd⟩ := List.nodup_cons.mp hnd
    rw [forM_cons, bind_apply, h t List.mem_cons_self s rfl, ← modifyAll_cons ht]
    refine forM_eq_ok hnd fun t' ht' a ha => h t' (List.mem_cons_of_mem t ht') a (ha.trans ?_)
    exact thread_modifyThread_of_ne s _ fun e => ht (e ▸ ht')

/-- All threads get a value under a name. -/
theorem forM_bind (hnd : active.Nodup) (name : Ident) (v : Nat → Value) :
    (active.forM fun t => modify fun s => GroupState.bind s t name (v t) : Run Unit) s =
      .ok () (s.modifyAll active fun t th => th.bind name (v t)) :=
  forM_eq_ok hnd fun _ _ _ _ => rfl

section Declarations
variable {s' : GroupState} {name : Ident} {type : ScalarType} {x : Exp} {v : Nat → Value}

instance : Nonempty Value := ⟨.i64 0⟩

/-- An assignment succeeds if in each thread the value is of the type of the variable. -/
theorem exec_set_eq_ok (hnd : active.Nodup) :
    exec ctx (.set name x) active s = .ok () s' ↔
      ∃ v : Nat → Value, (∀ t ∈ active, x.eval (s.scope ctx t) = .ok (v t) ∧
        ∃ old, (s.thread t).scalars[name]? = some old ∧ old.type = (v t).type) ∧
          s' = s.modifyAll active fun t th => th.bind name (v t) := by
  by_cases hne : active = []
  · subst hne
    simp only [exec_nil, modifyAll_nil, List.not_mem_nil, false_imp_iff, implies_true, true_and, exists_const]
    exact ⟨fun h => (pure_eq_ok.mp h).2, fun h => h ▸ rfl⟩
  have run : exec ctx (.set name x) active =
      active.forM fun t => (do let v ← value ctx t x; assign t name v : Run Unit) := by
    rw [exec, if_neg (by simpa using hne)]
  have forward : ∀ v : Nat → Value, (∀ t ∈ active, x.eval (s.scope ctx t) = .ok (v t) ∧
      ∃ old, (s.thread t).scalars[name]? = some old ∧ old.type = (v t).type) →
        exec ctx (.set name x) active s = .ok () (s.modifyAll active fun t th => th.bind name (v t)) := by
    intro v h
    rw [run]
    refine forM_eq_ok hnd fun t ht a ha => set_eq_ok.mpr ⟨v t, ?_, ?_, rfl⟩
    · rw [scope_eq, ha]
      exact (h t ht).1
    · rw [ha]
      exact (h t ht).2
  -- The other direction: each turn has computed a value, so the run is the one with these values.
  refine ⟨fun h => ?_, fun ⟨v, hv, h⟩ => h ▸ forward v hv⟩
  have each : ∀ t ∈ active, ∃ v, x.eval (s.scope ctx t) = .ok v ∧
      ∃ old, (s.thread t).scalars[name]? = some old ∧ old.type = v.type := by
    refine (forM_local (I := fun _ => True) (Q := fun t th _ => ∃ v, x.eval (th.scope ctx.captured) = .ok v ∧
      ∃ old, th.scalars[name]? = some old ∧ old.type = v.type) (fun t _ a b _ hturn => ?_) hnd trivial (run ▸ h)).2.2.1
    obtain ⟨v, hv, hold, rfl⟩ := set_eq_ok.mp hturn
    exact ⟨trivial, onlyThread_bind t a name v, v, hv, hold⟩
  choose! v hv using each
  refine ⟨v, hv, ?_⟩
  rw [forward v hv] at h
  cases h
  rfl

/-- So does a declaration with a value. Its expression is evaluated when the variable has been reset. -/
theorem exec_declareInit_eq_ok (hnd : active.Nodup) (hsize : ∀ t ∈ active, t < s.threads.size) :
    exec ctx (.declareInit name type x) active s = .ok () s' ↔
      ∃ v : Nat → Value, (∀ t ∈ active, x.eval ((s.scope ctx t).set name (.zero type)) = .ok (v t) ∧
        (v t).type = type) ∧
        s' = s.modifyAll active fun t th => th.bind name (v t) := by
  let s₀ := s.modifyAll active fun _ th => th.bind name (.zero type)
  have hdeclare : exec ctx (.declare name type false) active s = .ok () s₀ := by
    by_cases hne : active = []
    · subst hne
      rw [exec_nil]
      exact congrArg _ modifyAll_nil.symm
    · rw [exec, if_neg (by simpa using hne)]
      exact forM_bind hnd name fun _ => .zero type
  have hthread : ∀ t ∈ active, s₀.thread t = (s.thread t).bind name (.zero type) := fun t ht =>
    thread_modifyAll ht (hsize t ht)
  have hscope : ∀ t ∈ active, s₀.scope ctx t = (s.scope ctx t).set name (.zero type) := fun t ht => by
    rw [scope_eq, hthread t ht]
    exact funext fun y => Thread.scope_bind _ _ _ _ y
  have hzero : ∀ t ∈ active, ∀ v : Value,
      (∃ old, (s₀.thread t).scalars[name]? = some old ∧ old.type = v.type) ↔ v.type = type := fun t ht v => by
    rw [hthread t ht, Thread.bind]
    simp [Value.type_zero, eq_comm]
  rw [Stmt.declareInit, exec_seq_eq, execAll_of_ok hdeclare, execAll_singleton, exec_set_eq_ok hnd]
  refine exists_congr fun v => and_congr (forall₂_congr fun t ht => ?_) ?_
  · rw [hzero t ht, hscope t ht]
  · rw [modifyAll_modifyAll]
    simp only [Thread.bind_bind]

/-- All threads declare a variable, each with its own value. -/
theorem exec_declareInit (hnd : active.Nodup) (hsize : ∀ t ∈ active, t < s.threads.size) (hname : x.Over (.except name))
    (hx : ∀ t ∈ active, x.eval (s.scope ctx t) = .ok (v t)) (htype : ∀ t ∈ active, (v t).type = type) :
    exec ctx (.declareInit name type x) active s = .ok () (s.modifyAll active fun t th => th.bind name (v t)) := by
  refine (exec_declareInit_eq_ok hnd hsize).mpr
    ⟨v, fun t ht => ⟨(Exp.eval_congr fun y hy => ?_).trans (hx t ht), htype t ht⟩, rfl⟩
  exact Scope.set_of_ne (hname y hy).symm

/-- All threads ask the device. -/
theorem exec_ask (hnd : active.Nodup) {which : Query} :
    exec ctx (SegKernel.Launch.ask which name) active s =
      .ok () (s.modifyAll active fun t th => th.bind name (.i64 (answer ctx t which))) := by
  by_cases hne : active = []
  · subst hne
    rw [exec_nil, modifyAll_nil]
    rfl
  have hdeclare : exec ctx (.declare name .i64 false) active s =
      .ok () (s.modifyAll active fun _ th => th.bind name (.zero .i64)) := by
    rw [exec, if_neg (by simpa using hne)]
    exact forM_bind hnd name fun _ => .zero .i64
  have hquery : ∀ s₁ : GroupState, exec ctx (.query which name) active s₁ =
      .ok () (s₁.modifyAll active fun t th => th.bind name (.i64 (answer ctx t which))) := by
    intro s₁
    rw [exec, if_neg (by simpa using hne)]
    exact forM_bind hnd name fun t => .i64 (answer ctx t which)
  rw [SegKernel.Launch.ask, exec_seq_eq, execAll_cons, execAll_singleton, bind_apply, hdeclare]
  dsimp only
  rw [hquery, modifyAll_modifyAll]
  congr 2
  funext t th
  exact Thread.bind_bind ..

end Declarations

/-! ### Conditions and loops -/

/-- Code under a condition is run by the threads for which it holds. -/
theorem exec_when {c : Exp} {stmt : Stmt} {b : Nat → Bool} (hc : ∀ t ∈ active, Exp.IsBool (s.scope ctx t) c (b t)) :
    exec ctx (.when c stmt) active s = exec ctx stmt (active.filter b) s := by
  by_cases hne : active = []
  · subst hne
    rw [exec_nil, List.filter_nil, exec_nil]
  have static : ∀ {b' : Bool}, c.bool? = some b' → ∀ t ∈ active, b t = b' := fun hb' t ht =>
    (hc t ht).unique (Exp.eval_of_bool? hb')
  unfold Stmt.when
  split
  · rw [List.filter_eq_self.mpr (static ‹_›)]
  · rw [List.filter_eq_nil_iff.mpr fun t ht => by simp [static ‹_› t ht], exec_nil, exec_skip]
  · have hask := ask_eq_of_forall (s := s) (g := fun t s => c.evalBool (s.scope ctx t)) (a := b) fun t ht =>
      (hc t ht).evalBool
    have hthose : those (active.map fun t => (t, b t)) id = active.filter b := by
      simp [those, List.filter_map, Function.comp_def]
    rw [exec_branch hne, bind_apply]
    unfold condition
    rw [hask]
    dsimp only
    rw [hthose, exec_skip, bind_apply]
    cases exec ctx stmt (active.filter b) s <;> rfl

/-- A round of a counted loop, in which all threads take part. -/
def loopRound (ctx : GroupContext) (iter : Ident) (body : Stmt) (active : List Nat) (k : Nat) : Run Unit := fun s =>
  exec ctx body active (s.modifyAll active fun _ th => th.bind iter (.i64 (Int64.ofNat k)))

/-- Rounds that do the same from states with a property, which they preserve. -/
theorem countUp_congr {P : GroupState → Prop} {body body' : Nat → Run Unit} : ∀ {count first : Nat} {s : GroupState},
    (∀ k, first ≤ k → k < first + count → ∀ a, P a → body k a = body' k a ∧ ∀ b, body' k a = .ok () b → P b) → P s →
      countUp body count first s = countUp body' count first s
  | 0, _, _, _, _ => rfl
  | count + 1, first, s, h, hs => by
    obtain ⟨hsame, hnext⟩ := h first (Nat.le_refl _) (by omega) s hs
    rw [countUp, countUp, bind_apply, bind_apply, hsame]
    cases hround : body' first s with
    | error fault s' => rfl
    | ok _ s' => exact countUp_congr (fun k hk hlt => h k (by omega) (by omega)) (hnext s' hround)

theorem countUp_one {body : Nat → Run Unit} (first : Nat) : countUp body 1 first s = body first s := by
  rw [countUp, bind_apply]
  cases body first s <;> rfl

/-- A counted loop with the same bound for all threads goes round by round. -/
theorem exec_loop_uniform {iter : Ident} {bound : Exp} {body : Stmt} {b : Int64} (hnd : active.Nodup)
    (hne : active ≠ []) (hbound : ∀ t ∈ active, bound.evalInt (s.scope ctx t) = .ok b)
    (hlimit : b.toInt.toNat ≤ ctx.loopLimit) :
    exec ctx (.loop iter bound body) active s = countUp (loopRound ctx iter body active) b.toInt.toNat 0 s := by
  have hask := ask_eq_of_forall (s := s) (g := fun t s => bound.evalInt (s.scope ctx t)) (a := fun _ => b) hbound
  have htrips : trips (active.map fun t => (t, b)) = b.toInt.toNat := trips_eq_of_forall (by simpa using hne) (by simp)
  rw [exec_loop hne, bind_apply]
  unfold int
  rw [hask]
  dsimp only
  rw [htrips, if_neg (Nat.not_lt.mpr hlimit)]
  refine countUp_congr (P := fun _ => True) (fun k _ hk s' _ => ⟨?_, fun _ _ => trivial⟩) trivial
  have hlt : (k : Int) < b.toInt := by omega
  have inner : those (active.map fun t => (t, b)) (fun b => k < b.toInt) = active :=
    (those_eq_of_forall (by simpa using fun _ _ => hlt)).trans (by simp [Function.comp_def])
  rw [loopStep, inner, bind_apply, forM_bind hnd]
  rfl

end Run
end SegKernel
