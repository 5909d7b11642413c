import SegKernel.Proofs.Races.Knowledge

/-! The code of a whole group, phase by phase. In a phase the threads run side by side within their
    rights, and a barrier gives them new rights. From phase to phase goes what is known of the variables
    of each thread. -/

namespace SegKernel

/-- All threads of a group, in the order of their turns. -/
structure Squad extends Watch where
  order : List Nat
  nodup : order.Nodup
  mem_order : ∀ t, t ∈ order ↔ t < size
  pos : 0 < size

namespace Squad
open GroupState Watch
variable {G : Squad}

theorem order_ne_nil (G : Squad) : G.order ≠ [] := by
  intro h
  have := (G.mem_order 0).mpr G.pos
  simp [h] at this

/-- Each thread knows the variables of its scope. -/
def Know (G : Squad) (τ : Nat → Scope) (s : GroupState) : Prop := ∀ t < G.size, (τ t).Le (s.scope G.ctx t)

/-- A claim about the log of accesses. -/
abbrev LogClaim := RaceLog → Prop

/-- Nothing was accessed since the last barrier. -/
abbrev Settled (G : Squad) : LogClaim := Respected (noRights G.toWatch)

/-- From claims about the log and the variables of the threads a computation leads to others. -/
def Takes (G : Squad) (L : LogClaim) (τ : Nat → Scope) (r : Run Unit) (L' : LogClaim) (τ' : Nat → Scope) : Prop :=
  ∀ s, s.threads.size = G.size → L s.races → G.Know τ s →
    Run.Ends r (fun _ s' => s'.threads.size = G.size ∧ L' s'.races ∧ G.Know τ' s') s

/-- The same for a statement that all threads run. -/
def Leads (G : Squad) (L : LogClaim) (τ : Nat → Scope) (stmt : Stmt) (L' : LogClaim) (τ' : Nat → Scope) : Prop :=
  G.Takes L τ (Run.exec G.ctx stmt G.order) L' τ'

/-- The same for statements one after another. -/
def LeadsAll (G : Squad) (L : LogClaim) (τ : Nat → Scope) (stmts : List Stmt) (L' : LogClaim) (τ' : Nat → Scope) :
    Prop :=
  G.Takes L τ (Run.execAll G.ctx stmts G.order) L' τ'

variable {L L' L'' L₀ : LogClaim} {τ τ' τ'' τ₀ : Nat → Scope} {r r' : Run Unit} {stmt : Stmt} {stmts : List Stmt}

namespace Takes

theorem bind (h : G.Takes L τ r L' τ') (h' : G.Takes L' τ' r' L'' τ'') : G.Takes L τ (do r; r') L'' τ'' := by
  intro s hs hL hτ
  refine .bind (h s hs hL hτ) ?_
  rintro _ a ⟨ha, hL', hτ'⟩
  exact h' a ha hL' hτ'

theorem imp (h : G.Takes L τ r L' τ') (hL : ∀ log, L₀ log → L log) (hτ : ∀ t < G.size, (τ t).Le (τ₀ t))
    (hL' : ∀ log, L' log → L'' log) (hτ' : ∀ t < G.size, (τ'' t).Le (τ' t)) : G.Takes L₀ τ₀ r L'' τ'' := by
  intro s hs hL₀ hτ₀
  refine (h s hs (hL _ hL₀) fun t ht => (hτ t ht).trans (hτ₀ t ht)).imp ?_
  rintro _ a ⟨ha, hLa, hτa⟩
  exact ⟨ha, hL' _ hLa, fun t ht => (hτ' t ht).trans (hτa t ht)⟩

theorem pure (hL : ∀ log, L log → L' log) (hτ : ∀ t < G.size, (τ' t).Le (τ t)) : G.Takes L τ (Pure.pure ()) L' τ' :=
  fun _ hs hLs hτs => .pure ⟨hs, hL _ hLs, fun t ht => (hτ t ht).trans (hτs t ht)⟩

end Takes

/-! ### Sequences -/

theorem Leads.imp (h : G.Leads L τ stmt L' τ') (hL : ∀ log, L₀ log → L log) (hτ : ∀ t < G.size, (τ t).Le (τ₀ t))
    (hL' : ∀ log, L' log → L'' log) (hτ' : ∀ t < G.size, (τ'' t).Le (τ' t)) : G.Leads L₀ τ₀ stmt L'' τ'' :=
  Takes.imp h hL hτ hL' hτ'

/-- Something that was known can be forgotten. -/
theorem Leads.forget (h : G.Leads L τ stmt L' τ') (hτ' : ∀ t < G.size, (τ'' t).Le (τ' t)) : G.Leads L τ stmt L' τ'' :=
  h.imp (fun _ hl => hl) (fun _ _ => .refl _) (fun _ hl => hl) hτ'

theorem leadsAll_nil (L : LogClaim) (τ : Nat → Scope) : G.LeadsAll L τ [] L τ := by
  unfold LeadsAll
  rw [Run.execAll_nil]
  exact .pure (fun _ hl => hl) fun _ _ => .refl _

theorem Leads.andThen (h : G.Leads L τ stmt L' τ') (h' : G.LeadsAll L' τ' stmts L'' τ'') :
    G.LeadsAll L τ (stmt :: stmts) L'' τ'' := by
  unfold LeadsAll
  rw [Run.execAll_cons]
  exact Takes.bind h h'

theorem Leads.single (h : G.Leads L τ stmt L' τ') : G.LeadsAll L τ [stmt] L' τ' := h.andThen (leadsAll_nil L' τ')

theorem LeadsAll.append {as bs : List Stmt} (h : G.LeadsAll L τ as L' τ') (h' : G.LeadsAll L' τ' bs L'' τ'') :
    G.LeadsAll L τ (as ++ bs) L'' τ'' := by
  unfold LeadsAll
  rw [Run.execAll_append]
  exact Takes.bind h h'

theorem LeadsAll.block (h : G.LeadsAll L τ stmts L' τ') : G.Leads L τ (.block stmts) L' τ' := by
  unfold Leads
  rw [Run.exec_block]
  exact h

theorem Leads.comment (text : String) (h : G.Leads L τ stmt L' τ') : G.Leads L τ (.comment text stmt) L' τ' := by
  unfold Leads
  rw [Run.exec_comment]
  exact h

/-! ### Phases -/

/-- Threads that each heed their rights make a phase. -/
theorem leads_of_heeds {R : G.Rights} (h : ∀ t < G.size, ∀ σ, (τ t).Le σ → G.Heeds R t stmt (τ' t).Le σ) :
    G.Leads (Respected R) τ stmt (Respected R) τ' := by
  intro s hs hL hτ
  have hlt : ∀ t ∈ G.order, t < G.size := fun t ht => (G.mem_order t).mp ht
  refine (Steps.exec stmt G.order (fun t => (τ' t).Le) G.nodup hlt s ⟨hs, hL⟩ fun t ht =>
    h t (hlt t ht) _ (hτ t (hlt t ht))).imp ?_
  rintro _ a ⟨ha, hτ', -⟩
  exact ⟨ha.size, ha.respected, fun t ht => hτ' t ((G.mem_order t).mpr ht)⟩

/-- Threads that obey make a phase. -/
theorem leads_of_obeys {R : G.Rights} (h : ∀ t < G.size, G.Obeys R t (τ t) [stmt] (τ' t)) :
    G.Leads (Respected R) τ stmt (Respected R) τ' := by
  refine leads_of_heeds fun t ht σ hσ => ?_
  rw [← heedsAll_singleton]
  exact h t ht σ hσ

/-- Where nothing was accessed, any rights were respected. -/
theorem Leads.start {R : G.Rights} (h : G.Leads (Respected R) τ stmt L' τ') : G.Leads G.Settled τ stmt L' τ' :=
  h.imp (fun _ hl => hl.imp fun _ _ _ h => h.elim) (fun _ _ => .refl _) (fun _ hl => hl) fun _ _ => .refl _

theorem Leads.sound {R : G.Rights} (h : G.Leads L τ stmt (Respected R) τ') : G.Leads L τ stmt G.Sound τ' :=
  h.imp (fun _ hl => hl) (fun _ _ => .refl _) (fun _ hl => hl.sound) fun _ _ => .refl _

/-- A barrier gives new rights. -/
theorem leads_barrier {R : G.Rights} (fence : Fence) (hL : ∀ log, L log → G.Sound log) :
    G.Leads L τ (.barrier fence) (Respected R) τ := by
  intro s hs hLs hτ
  have hne : G.order.isEmpty = false := Run.exec_of_ne_nil G.order_ne_nil
  rw [Run.exec, if_neg (by simp [hne])]
  exact .modify ⟨hs, (hL _ hLs).nextEpoch, hτ⟩

/-! ### Control -/

/-- The condition on which all threads agree. -/
theorem Know.ask (hτ : G.Know τ s) {c : Exp} {b : Bool} (hc : ∀ t < G.size, Exp.IsBool (τ t) c b) :
    Run.ask G.order (fun t => Run.condition G.ctx t c) s = .ok (G.order.map fun t => (t, b)) s :=
  Run.ask_eq_of_forall (g := fun t s => c.evalBool (s.scope G.ctx t)) (a := fun _ => b) fun t ht => by
    have hlt := (G.mem_order t).mp ht
    exact ((hc t hlt).mono (hτ t hlt)).evalBool

theorem those_all {α : Type} (p : α → Bool) (b : α) :
    Run.those (G.order.map fun t => (t, b)) p = if p b then G.order else [] := by
  split
  · rename_i h
    rw [Run.those_eq_of_forall (by simp [h]), List.map_map]
    exact List.map_id _
  · rename_i h
    rw [Run.those_eq_nil_of_forall (by simp [h])]

/-- All threads take the same way. -/
theorem leads_when {c : Exp} {b : Bool} (hc : ∀ t < G.size, Exp.IsBool (τ t) c b)
    (htrue : b = true → G.Leads L τ stmt L' τ')
    (hfalse : b = false → (∀ log, L log → L' log) ∧ ∀ t < G.size, (τ' t).Le (τ t)) :
    G.Leads L τ (.when c stmt) L' τ' := by
  unfold Stmt.when
  split
  · rename_i h
    exact htrue (Exp.IsBool.unique (Exp.eval_of_bool? h) (hc 0 G.pos)).symm
  · rename_i h
    obtain ⟨hL, hτ⟩ := hfalse (Exp.IsBool.unique (Exp.eval_of_bool? h) (hc 0 G.pos)).symm
    unfold Leads
    rw [Run.exec_skip]
    exact .pure hL hτ
  · intro s hs hLs hτ
    rw [Run.exec_branch G.order_ne_nil]
    refine .bind (.of_ok (P := fun answers s' => answers = G.order.map (fun t => (t, b)) ∧ s' = s) (hτ.ask hc)
      ⟨rfl, rfl⟩) ?_
    rintro _ s' ⟨rfl, rfl⟩
    rw [those_all, those_all]
    -- The side that is not taken is run by no thread, and a side that is empty by all.
    cases b with
    | true =>
      refine .bind (htrue rfl s' hs hLs hτ) ?_
      rintro _ a ha
      rw [if_neg (by simp), Run.exec_nil]
      exact .pure ha
    | false =>
      obtain ⟨hL, hτ'⟩ := hfalse rfl
      rw [if_neg (by simp), Run.exec_nil, if_pos (by simp), Run.exec_skip]
      exact Takes.bind (.pure (fun _ hl => hl) fun _ _ => .refl _) (.pure hL hτ') s' hs hLs hτ

/-- A loop that all threads leave together. `p` holds of each round. -/
theorem leads_repeatWhile {c : Exp} {b : Nat → Bool} {p : Nat → Prop} {L : Nat → LogClaim} {τ : Nat → Nat → Scope}
    (hc : ∀ k, p k → ∀ t < G.size, Exp.IsBool (τ k t) c (b k))
    (hbody : ∀ k, p k → b k = true → p (k + 1) ∧ G.Leads (L k) (τ k) stmt (L (k + 1)) (τ (k + 1)))
    (hend : ∀ k, p k → b k = false → (∀ log, L k log → L' log) ∧ ∀ t < G.size, (τ' t).Le (τ k t)) (h0 : p 0) :
    G.Leads (L 0) (τ 0) (.repeatWhile c stmt) L' τ' := by
  have test : ∀ {k s}, p k → G.Know (τ k) s → Run.loopTest G.ctx c G.order s = .ok (if b k then G.order else []) s := by
    intro k s hk hτ
    refine Run.bind_eq_ok.mpr ⟨_, s, hτ.ask (hc k hk), ?_⟩
    rw [those_all]
    rfl
  -- On the limit: when it is used up the run fails, which is no race.
  have rounds : ∀ limit k, p k → G.Takes (L k) (τ k)
      (Run.whileLive (Run.loopTest G.ctx c) (fun live => Run.exec G.ctx stmt live) limit G.order) L' τ' := by
    intro limit
    induction limit with
    | zero =>
      intro k hk s hs hLs hτ
      rw [Run.whileLive]
      refine .bind (.of_ok (P := fun live s' => live = (if b k then G.order else []) ∧ s' = s) (test hk hτ) ⟨rfl, rfl⟩) ?_
      rintro _ s' ⟨rfl, rfl⟩
      cases hb : b k with
      | true =>
        rw [if_pos rfl, if_neg (by simp [G.order_ne_nil])]
        exact .throw (Fault.not_isRace (by simp))
      | false =>
        obtain ⟨hL, hτ'⟩ := hend k hk hb
        exact Takes.pure hL hτ' s' hs hLs hτ
    | succ n ih =>
      intro k hk s hs hLs hτ
      rw [Run.whileLive]
      refine .bind (.of_ok (P := fun live s' => live = (if b k then G.order else []) ∧ s' = s) (test hk hτ) ⟨rfl, rfl⟩) ?_
      rintro _ s' ⟨rfl, rfl⟩
      cases hb : b k with
      | true =>
        obtain ⟨hk', hlead⟩ := hbody k hk hb
        rw [if_pos rfl, if_neg (by simp [G.order_ne_nil])]
        exact Takes.bind hlead (ih (k + 1) hk') s' hs hLs hτ
      | false =>
        obtain ⟨hL, hτ'⟩ := hend k hk hb
        exact Takes.pure hL hτ' s' hs hLs hτ
  unfold Leads
  rw [Run.exec_repeatWhile G.order_ne_nil]
  exact rounds _ 0 h0

theorem forM_modify {α : Type} (f : α → GroupState → GroupState) : ∀ (as : List α) (s : GroupState),
    (as.forM fun a => modify (f a) : Run Unit) s = .ok () (as.foldl (fun s a => f a s) s)
  | [], _ => rfl
  | a :: as, s => forM_modify f as (f a s)

/-- All threads give a variable a value. -/
theorem bind_takes (name : Ident) (v : Value) :
    G.Takes L τ (G.order.forM fun t => modify fun s => s.bind t name v) L fun t => (τ t).set name v := by
  -- On the threads in turn: those that had theirs know the value, and the others are as before.
  have fold : ∀ (order : List Nat) (s : GroupState), order.Nodup → (∀ t ∈ order, t < s.threads.size) →
      let s' := order.foldl (fun s t => s.bind t name v) s
      s'.threads.size = s.threads.size ∧ s'.races = s.races ∧
        (∀ t ∈ order, s'.scope G.ctx t = (s.scope G.ctx t).set name v) ∧
        ∀ t, t ∉ order → s'.scope G.ctx t = s.scope G.ctx t := by
    intro order
    induction order with
    | nil => exact fun s _ _ => ⟨rfl, rfl, by simp, fun _ _ => rfl⟩
    | cons t ts ih =>
      intro s hnd hlt
      obtain ⟨hnt, hnd⟩ := List.nodup_cons.mp hnd
      have size : (s.bind t name v).threads.size = s.threads.size := size_modifyThread s t _
      have own : (s.bind t name v).scope G.ctx t = (s.scope G.ctx t).set name v :=
        scope_bind (W := G.toWatch) (hlt t List.mem_cons_self) name v
      have other : ∀ t', t' ≠ t → (s.bind t name v).scope G.ctx t' = s.scope G.ctx t' := fun t' h => by
        rw [scope_eq, scope_eq, bind_eq, thread_modifyThread_of_ne _ _ h]
      obtain ⟨hsize, hraces, hin, hout⟩ := ih (s.bind t name v) hnd fun t' ht' => by
        rw [size]
        exact hlt t' (List.mem_cons_of_mem t ht')
      refine ⟨hsize.trans size, hraces, fun t' ht' => ?_, fun t' ht' => ?_⟩
      · rcases List.mem_cons.mp ht' with rfl | ht'
        · exact (hout t' hnt).trans own
        · have hne : t' ≠ t := fun e => hnt (e ▸ ht')
          exact (hin t' ht').trans (by rw [other t' hne])
      · rw [List.mem_cons, not_or] at ht'
        exact (hout t' ht'.2).trans (other t' ht'.1)
  intro s hs hL hτ
  obtain ⟨hsize, hraces, hin, -⟩ := fold G.order s G.nodup fun t ht => hs ▸ (G.mem_order t).mp ht
  refine .of_ok (forM_modify (fun t s => s.bind t name v) G.order s) ⟨hsize.trans hs, hraces ▸ hL, fun t ht => ?_⟩
  rw [hin t ((G.mem_order t).mpr ht)]
  exact (hτ t ht).set

/-- A loop of which all threads know the same bound. -/
theorem leads_loop {iter : Ident} {bound : Exp} {n : Int64} {L : Nat → LogClaim} {τ : Nat → Nat → Scope}
    (hbound : ∀ t < G.size, bound.eval (τ 0 t) = .ok (.i64 n))
    (hbody : ∀ k < n.toInt.toNat, G.Leads (L k) (fun t => (τ k t).set iter (.i64 (Int64.ofNat k))) stmt (L (k + 1))
      (τ (k + 1))) : G.Leads (L 0) (τ 0) (.loop iter bound stmt) (L n.toInt.toNat) (τ n.toInt.toNat) := by
  let bounds := G.order.map fun t => (t, n)
  have step : ∀ k < n.toInt.toNat, G.Takes (L k) (τ k) (Run.loopStep G.ctx iter stmt bounds k) (L (k + 1))
    (τ (k + 1)) := by
    intro k hk
    have inner : Run.those bounds (fun b => k < b.toInt) = G.order := by
      rw [those_all, if_pos (decide_eq_true (Int.lt_toNat.mp hk))]
    have sets : G.Takes (L k) (τ k) (G.order.forM fun t => modify fun s => s.bind t iter (.i64 (Int64.ofNat k))) (L k)
        (fun t => (τ k t).set iter (.i64 (Int64.ofNat k))) := bind_takes iter _
    unfold Run.loopStep
    rw [inner]
    exact sets.bind (hbody k hk)
  -- On the rounds that are left, as `Run.countUp` takes them.
  have rounds : ∀ count first, first + count ≤ n.toInt.toNat →
      G.Takes (L first) (τ first) (Run.countUp (Run.loopStep G.ctx iter stmt bounds) count first) (L (first + count))
        (τ (first + count)) := by
    intro count
    induction count with
    | zero => exact fun first _ => .pure (fun _ hl => hl) fun _ _ => .refl _
    | succ m ih =>
      intro first hle
      have rest := ih (first + 1) (by omega)
      rw [show first + 1 + m = first + (m + 1) by omega] at rest
      exact (step first (by omega)).bind rest
  intro s hs hLs hτ
  have hask : Run.ask G.order (fun t => Run.int G.ctx t bound) s = .ok bounds s :=
    Run.ask_eq_of_forall (g := fun t s => bound.evalInt (s.scope G.ctx t)) (a := fun _ => n) fun t ht => by
      have hlt := (G.mem_order t).mp ht
      rw [Exp.evalInt, Exp.eval_mono (hτ t hlt) (hbound t hlt)]
  have htrips : Run.trips bounds = n.toInt.toNat :=
    Run.trips_eq_of_forall (by simpa [bounds] using G.order_ne_nil) (by simp [bounds])
  rw [Run.exec_loop G.order_ne_nil]
  refine .bind (.of_ok (P := fun answers s' => answers = bounds ∧ s' = s) hask ⟨rfl, rfl⟩) ?_
  rintro _ s' ⟨rfl, rfl⟩
  by_cases hlimit : G.ctx.loopLimit < Run.trips bounds
  · simp only [if_pos hlimit]
    exact .bind (.throw (P := fun _ _ => False) (Fault.not_isRace (by simp))) fun _ _ h => h.elim
  · have whole := rounds n.toInt.toNat 0 (by omega) s' hs hLs hτ
    rw [Nat.zero_add, ← htrips] at whole
    simp only [if_neg hlimit, ← htrips]
    exact whole

end Squad
end SegKernel
