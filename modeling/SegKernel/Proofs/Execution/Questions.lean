import SegKernel.Proofs.Execution.Steps

/-! Equations of the executor: the questions that it asks all threads, its loops, and the statements with control
    flow. What holds of each round of a loop, or of each turn of a thread, holds of all of them together. -/

namespace SegKernel
namespace Run
open GroupState
variable {ctx : GroupContext}

/-! ### Questions -/

/-- A question that is evaluated leaves the state as it is, and each answer is the thread's own. -/
theorem ask_eq_ok {α : Type} {g : Nat → GroupState → Except Fault α} :
    ∀ {active : List Nat} {answers : List (Nat × α)} {s s' : GroupState},
      ask active (fun t => evaluate (g t)) s = .ok answers s' →
        s' = s ∧ answers.map (·.1) = active ∧ ∀ p ∈ answers, g p.1 s = .ok p.2
  | [], answers, s, s', h => by
    rw [ask, List.mapM_nil] at h
    obtain ⟨rfl, rfl⟩ := pure_eq_ok.mp h
    exact ⟨rfl, rfl, by simp⟩
  | t :: ts, answers, s, s', h => by
    simp only [ask, List.mapM_cons, bind_eq_ok, evaluate_eq_ok, pure_eq_ok] at h
    obtain ⟨p, s₁, ⟨a, s₂, ⟨ha, rfl⟩, rfl, rfl⟩, rest, s₃, hrest, rfl, rfl⟩ := h
    obtain ⟨rfl, hfst, hall⟩ := ask_eq_ok hrest
    refine ⟨rfl, by simp [hfst], ?_⟩
    intro q hq
    rcases List.mem_cons.mp hq with rfl | hq
    · exact ha
    · exact hall q hq

theorem those_eq_of_forall {α : Type} {answers : List (Nat × α)} {p : α → Bool} (h : ∀ a ∈ answers, p a.2 = true) :
    those answers p = answers.map (·.1) := by
  rw [those, List.filter_eq_self.mpr h]

theorem those_eq_nil_of_forall {α : Type} {answers : List (Nat × α)} {p : α → Bool}
    (h : ∀ a ∈ answers, p a.2 = false) : those answers p = [] := by
  rw [those, List.filter_eq_nil_iff.mpr (by simpa using h), List.map_nil]

theorem trips_eq_of_forall {bounds : List (Nat × Int64)} {b : Int64} (hne : bounds ≠ [])
    (h : ∀ p ∈ bounds, p.2 = b) : trips bounds = b.toInt.toNat := by
  have fold : ∀ (l : List (Nat × Int64)) (n : Nat), (∀ p ∈ l, p.2 = b) → n ≤ b.toInt.toNat →
      (n = b.toInt.toNat ∨ l ≠ []) → l.foldl (fun n b => max n b.2.toInt.toNat) n = b.toInt.toNat := by
    intro l
    induction l with
    | nil => intro n _ _ h; simpa using h
    | cons p l ih =>
      intro n hl hn _
      rw [List.foldl_cons, hl p List.mem_cons_self, Nat.max_eq_right hn]
      exact ih _ (fun q hq => hl q (List.mem_cons_of_mem p hq)) (Nat.le_refl _) (Or.inl rfl)
  exact fold bounds 0 h (Nat.zero_le _) (Or.inr hne)

/-! ### Statements -/

@[simp] theorem exec_nil (ctx : GroupContext) (stmt : Stmt) : exec ctx stmt [] = pure () := by
  unfold exec
  rfl

theorem exec_of_ne_nil {active : List Nat} (h : active ≠ []) : active.isEmpty = false := by
  simpa using h

variable {active : List Nat}

theorem exec_seq (stmts : List Stmt) : exec ctx (.seq stmts) active = if active.isEmpty then pure () else
    execAll ctx stmts active := by
  rw [exec]

theorem execAll_nil_active (stmts : List Stmt) : execAll ctx stmts [] = pure () := by
  induction stmts with
  | nil => rw [execAll]
  | cons stmt stmts ih =>
    rw [execAll, exec_nil, ih]
    rfl

/-- A sequence runs its statements, also where no thread is active. -/
@[simp] theorem exec_seq_eq (stmts : List Stmt) : exec ctx (.seq stmts) active = execAll ctx stmts active := by
  rw [exec_seq]
  split
  · rename_i h
    rw [List.isEmpty_iff.mp h, execAll_nil_active]
  · rfl

@[simp] theorem exec_comment (text : String) (body : Stmt) :
    exec ctx (.comment text body) active = exec ctx body active := by
  rw [exec]
  split
  · rename_i h
    rw [List.isEmpty_iff.mp h, exec_nil]
  · rfl

@[simp] theorem execAll_nil : execAll ctx [] active = pure () := by
  rw [execAll]

theorem execAll_cons (stmt : Stmt) (stmts : List Stmt) :
    execAll ctx (stmt :: stmts) active = (do exec ctx stmt active; execAll ctx stmts active) := by
  rw [execAll]

theorem execAll_append (as bs : List Stmt) :
    execAll ctx (as ++ bs) active = (do execAll ctx as active; execAll ctx bs active) := by
  induction as with
  | nil => rw [List.nil_append, execAll_nil, pure_bind]
  | cons a as ih => rw [List.cons_append, execAll_cons, ih, execAll_cons, bind_assoc]

@[simp] theorem execAll_singleton (stmt : Stmt) : execAll ctx [stmt] active = exec ctx stmt active := by
  rw [execAll_cons, execAll_nil]
  exact bind_pure_unit

theorem exec_skip : exec ctx .skip active = pure () := by
  rw [exec]
  split <;> rfl

/-- What a statement contributes to a sequence runs as the statement does. -/
theorem execAll_pieces (stmt : Stmt) : execAll ctx stmt.pieces active = exec ctx stmt active := by
  cases stmt with
  | skip => rw [Stmt.pieces, execAll_nil, exec_skip]
  | seq stmts => rw [Stmt.pieces, exec_seq_eq]
  | _ => rw [Stmt.pieces, execAll_singleton] <;> simp

theorem execAll_flatMap_pieces (stmts : List Stmt) :
    execAll ctx (stmts.flatMap Stmt.pieces) active = execAll ctx stmts active := by
  induction stmts with
  | nil => rfl
  | cons stmt stmts ih => rw [List.flatMap_cons, execAll_append, execAll_pieces, ih, execAll_cons]

/-- A block runs its statements one after another. -/
@[simp] theorem exec_block (stmts : List Stmt) : exec ctx (.block stmts) active = execAll ctx stmts active := by
  rw [← execAll_flatMap_pieces, Stmt.block]
  split
  · rename_i h
    rw [h, execAll_nil, exec_skip]
  · rename_i stmt h
    rw [h, execAll_singleton]
  · rw [exec_seq_eq]

/-- One iteration of a counted loop. -/
def loopStep (ctx : GroupContext) (iter : Ident) (body : Stmt) (bounds : List (Nat × Int64)) (k : Nat) : Run Unit := do
  let inner := those bounds fun b => k < b.toInt
  inner.forM fun t => modify fun s => s.bind t iter (.i64 (Int64.ofNat k))
  exec ctx body inner

/-- The test of a conditional loop. -/
def loopTest (ctx : GroupContext) (c : Exp) (live : List Nat) : Run (List Nat) := do
  return those (← ask live fun t => condition ctx t c) id

theorem exec_branch {c : Exp} {ifTrue ifFalse : Stmt} (h : active ≠ []) :
    exec ctx (.branch c ifTrue ifFalse) active = (do
      let answers ← ask active fun t => condition ctx t c
      exec ctx ifTrue (those answers id)
      exec ctx ifFalse (those answers not)) := by
  rw [exec, if_neg (by simpa using h)]

theorem exec_loop {iter : Ident} {bound : Exp} {body : Stmt} (h : active ≠ []) :
    exec ctx (.loop iter bound body) active = (do
      let bounds ← ask active fun t => int ctx t bound
      if ctx.loopLimit < trips bounds then throw .loopLimit
      countUp (loopStep ctx iter body bounds) (trips bounds) 0) := by
  rw [exec, if_neg (by simpa using h)]
  rfl

theorem exec_repeatWhile {c : Exp} {body : Stmt} (h : active ≠ []) :
    exec ctx (.repeatWhile c body) active =
      whileLive (loopTest ctx c) (fun live => exec ctx body live) ctx.loopLimit active := by
  rw [exec, if_neg (by simpa using h)]
  rfl

/-- A branch that ends without a fault has asked all its threads, and has run both sides. -/
theorem exec_branch_ok {c : Exp} {ifTrue ifFalse : Stmt} {s s' : GroupState} (hne : active ≠ [])
    (h : exec ctx (.branch c ifTrue ifFalse) active s = .ok () s') :
    ∃ answers s₁, ask active (fun t => condition ctx t c) s = .ok answers s ∧
      exec ctx ifTrue (those answers id) s = .ok () s₁ ∧ exec ctx ifFalse (those answers not) s₁ = .ok () s' := by
  rw [exec_branch hne] at h
  obtain ⟨answers, s₁, hask, hrest⟩ := bind_eq_ok.mp h
  obtain ⟨rfl, -, -⟩ := ask_eq_ok hask
  obtain ⟨_, s₂, h₁, h₂⟩ := bind_eq_ok.mp hrest
  exact ⟨answers, s₂, hask, h₁, h₂⟩

/-- A counted loop that ends without a fault has asked all its threads, and has run all its rounds. -/
theorem exec_loop_ok {iter : Ident} {bound : Exp} {body : Stmt} {s s' : GroupState} (hne : active ≠ [])
    (h : exec ctx (.loop iter bound body) active s = .ok () s') :
    ∃ bounds, ask active (fun t => int ctx t bound) s = .ok bounds s ∧
      countUp (loopStep ctx iter body bounds) (trips bounds) 0 s = .ok () s' := by
  rw [exec_loop hne] at h
  obtain ⟨bounds, s₁, hask, hrest⟩ := bind_eq_ok.mp h
  obtain ⟨rfl, -, -⟩ := ask_eq_ok hask
  refine ⟨bounds, hask, ?_⟩
  dsimp only at hrest
  split at hrest
  · exact absurd hrest (by simp [throw_ne_ok, bind_eq_ok])
  · exact hrest

theorem loopTest_ok {c : Exp} {live live' : List Nat} {s s' : GroupState}
    (h : loopTest ctx c live s = .ok live' s') :
    s' = s ∧ ∃ answers, ask live (fun t => condition ctx t c) s = .ok answers s ∧ live' = those answers id := by
  obtain ⟨answers, s₁, hask, hpure⟩ := bind_eq_ok.mp h
  obtain ⟨rfl, -, -⟩ := ask_eq_ok hask
  obtain ⟨rfl, rfl⟩ := pure_eq_ok.mp hpure
  exact ⟨rfl, answers, hask, rfl⟩

/-! ### What each round of a loop, and each turn of a thread, hands on -/

/-- A property that each round hands on to the next one. -/
theorem countUp_ok {body : Nat → Run Unit} {P : Nat → GroupState → Prop}
    (step : ∀ k s s', P k s → body k s = .ok () s' → P (k + 1) s') :
    ∀ {count first : Nat} {s s' : GroupState}, P first s → countUp body count first s = .ok () s' →
      P (first + count) s'
  | 0, first, s, s', hP, h => by
    obtain ⟨-, rfl⟩ := pure_eq_ok.mp h
    exact hP
  | n + 1, first, s, s', hP, h => by
    obtain ⟨_, s₁, h₁, h₂⟩ := bind_eq_ok.mp h
    have := countUp_ok step (step first s s₁ hP h₁) h₂
    rwa [Nat.add_assoc, Nat.add_comm 1 n] at this

/-- A property of the state that each round keeps, where the test keeps it too. -/
theorem whileLive_ok {test : List Nat → Run (List Nat)} {body : List Nat → Run Unit} {P : GroupState → Prop}
    (tests : ∀ live s live' s', P s → test live s = .ok live' s' → P s')
    (bodies : ∀ live s s', P s → body live s = .ok () s' → P s') :
    ∀ {limit : Nat} {live : List Nat} {s s' : GroupState}, P s → whileLive test body limit live s = .ok () s' → P s'
  | 0, live, s, s', hP, h => by
    obtain ⟨live', s₁, h₁, h₂⟩ := bind_eq_ok.mp h
    split at h₂
    · obtain ⟨-, rfl⟩ := pure_eq_ok.mp h₂
      exact tests live s live' s' hP h₁
    · exact absurd h₂ (by simp [throw_ne_ok])
  | n + 1, live, s, s', hP, h => by
    obtain ⟨live', s₁, h₁, h₂⟩ := bind_eq_ok.mp h
    have hP₁ := tests live s live' s₁ hP h₁
    split at h₂
    · obtain ⟨-, rfl⟩ := pure_eq_ok.mp h₂
      exact hP₁
    · obtain ⟨_, s₂, h₂, h₃⟩ := bind_eq_ok.mp h₂
      exact whileLive_ok tests bodies (bodies live' s₁ s₂ hP₁ h₂) h₃

/-- A relation that each turn keeps, if it is reflexive and transitive. -/
theorem forM_rel {f : Nat → Run Unit} {R : GroupState → GroupState → Prop} (refl : ∀ a, R a a)
    (trans : ∀ {a b c}, R a b → R b c → R a c) :
    ∀ {active : List Nat} {s s' : GroupState}, (∀ t ∈ active, ∀ a b, f t a = .ok () b → R a b) →
      active.forM f s = .ok () s' → R s s'
  | [], s, s', _, h => by
    obtain ⟨-, rfl⟩ := pure_eq_ok.mp h
    exact refl _
  | t :: ts, s, s', step, h => by
    obtain ⟨_, b, hb, hrest⟩ := bind_eq_ok.mp (forM_cons t ts f ▸ h)
    exact trans (step t List.mem_cons_self s b hb)
      (forM_rel refl trans (fun t' ht' => step t' (List.mem_cons_of_mem t ht')) hrest)

/-- A relation that each statement of a sequence keeps, if it is reflexive and transitive. -/
theorem execAll_rel {active : List Nat} {R : GroupState → GroupState → Prop}
    (refl : ∀ a, R a a) (trans : ∀ {a b c}, R a b → R b c → R a c) :
    ∀ {stmts : List Stmt} {s s' : GroupState}, (∀ stmt ∈ stmts, ∀ a b, exec ctx stmt active a = .ok () b → R a b) →
      execAll ctx stmts active s = .ok () s' → R s s'
  | [], s, s', _, h => by
    rw [execAll_nil] at h
    obtain ⟨-, rfl⟩ := pure_eq_ok.mp h
    exact refl _
  | stmt :: stmts, s, s', step, h => by
    obtain ⟨_, b, hb, hrest⟩ := bind_eq_ok.mp (execAll_cons stmt stmts ▸ h)
    exact trans (step stmt List.mem_cons_self s b hb)
      (execAll_rel refl trans (fun t' ht' => step t' (List.mem_cons_of_mem stmt ht')) hrest)

end Run
end SegKernel
