import Mathlib.Data.List.Perm.Basic
import SegKernel.Device.Basic
import SegKernel.Launch.Basic
import SegKernel.Proofs.Execution.Contents
import SegKernel.Proofs.Execution.Turns

/-! The code of a whole group. It goes from phase to phase. In a phase the threads work side by side;
    between two phases there is a claim for each thread, and the memory is what the writes so far have
    made of it. -/

namespace SegKernel

/-- All threads of a group, in the order of their turns. Where accesses are checked for races, the slots
    that each thread may write are the same in all phases. -/
structure Team where
  ctx : GroupContext
  order : List Nat
  size : Nat
  /-- The slots that each thread may write where accesses are checked. -/
  own : Nat → Slot → Prop
  oneWave : ctx.checkRaces = true → OneWave ctx size own
  nodup : order.Nodup
  mem_order : ∀ t, t ∈ order ↔ t < size
  pos : 0 < size

namespace Team
open GroupState

/-- The threads from some memory on. -/
def crowd (G : Team) (m : Store) : Crowd := ⟨G.ctx, m, G.own, G.size, G.oneWave⟩

/-- A claim for each thread, and the memory. -/
structure Has (G : Team) (T : Nat → Thread → Prop) (m : Store) (s : GroupState) : Prop where
  size : s.threads.size = G.size
  threads : ∀ t < G.size, T t (s.thread t)
  store : s.store = m
  log : (G.crowd m).Orderly s.races

/-- The computation ends without a fault, takes all threads from one claim to another, and its writes
    satisfy `R`. -/
def Takes (G : Team) (T : Nat → Thread → Prop) (m : Store) (r : Run Unit) (events : GroupState → List (Nat × Write))
    (T' : Nat → Thread → Prop) (R : List Write → Prop) : Prop :=
  ∀ s, G.Has T m s → ∃ s', r s = .ok () s' ∧ G.Has T' (m.puts ((events s).map (·.2))) s' ∧ R ((events s).map (·.2))

/-- The same for a statement that all threads run. -/
def Leads (G : Team) (T : Nat → Thread → Prop) (m : Store) (stmt : Stmt) (T' : Nat → Thread → Prop)
    (R : List Write → Prop) : Prop :=
  G.Takes T m (Run.exec G.ctx stmt G.order) (Run.trace Run.writesAt G.ctx stmt G.order) T' R

/-- The same for statements one after another. -/
def LeadsAll (G : Team) (T : Nat → Thread → Prop) (m : Store) (stmts : List Stmt) (T' : Nat → Thread → Prop)
    (R : List Write → Prop) : Prop :=
  G.Takes T m (Run.execAll G.ctx stmts G.order) (Run.traceAll Run.writesAt G.ctx stmts G.order) T' R

variable {G : Team} {T T' T'' : Nat → Thread → Prop} {m : Store} {r r' : Run Unit}
  {events events' : GroupState → List (Nat × Write)} {R R' : List Write → Prop} {stmt : Stmt} {stmts : List Stmt}

theorem order_ne_nil (G : Team) : G.order ≠ [] := by
  intro h
  have := (G.mem_order 0).mpr G.pos
  simp [h] at this

namespace Takes

theorem pure (hT : ∀ t < G.size, ∀ th, T t th → T' t th) (hR : R []) :
    G.Takes T m (Pure.pure ()) (fun _ => []) T' R := fun s hs =>
  ⟨s, rfl, ⟨hs.size, fun t ht => hT t ht _ (hs.threads t ht), hs.store, hs.log⟩, hR⟩

/-- What follows starts from the memory that the first writes have made. -/
theorem bind (h : G.Takes T m r events T' R)
    (h' : ∀ ws, R ws → G.Takes T' (m.puts ws) r' events' T'' fun ws' => R' (ws ++ ws')) :
    G.Takes T m (do r; r') (fun s => events s ++ Run.after r s fun _ s => events' s) T'' R' := by
  intro s hs
  obtain ⟨s₁, h₁, hs₁, hR⟩ := h s hs
  obtain ⟨s₂, h₂, hs₂, hR'⟩ := h' _ hR s₁ hs₁
  dsimp only
  rw [Run.after_ok h₁, List.map_append]
  refine ⟨s₂, ?_, ?_, hR'⟩
  · rw [Run.bind_apply, h₁]
    exact h₂
  · rwa [Store.puts_append]

theorem imp {T₀ : Nat → Thread → Prop} (h : G.Takes T m r events T' R) (hT : ∀ t < G.size, ∀ th, T₀ t th → T t th)
    (hT' : ∀ t < G.size, ∀ th, T' t th → T'' t th) (hR : ∀ ws, R ws → R' ws) : G.Takes T₀ m r events T'' R' := by
  intro s hs
  obtain ⟨s', hr, hs', hR'⟩ := h s ⟨hs.size, fun t ht => hT t ht _ (hs.threads t ht), hs.store, hs.log⟩
  exact ⟨s', hr, ⟨hs'.size, fun t ht => hT' t ht _ (hs'.threads t ht), hs'.store, hs'.log⟩, hR _ hR'⟩

end Takes

/-! ### Sequences -/

theorem leadsAll_nil (hT : ∀ t < G.size, ∀ th, T t th → T' t th) (hR : R []) : G.LeadsAll T m [] T' R := by
  unfold LeadsAll
  rw [Run.execAll_nil, show Run.traceAll Run.writesAt G.ctx [] G.order = fun _ => [] from
    funext fun s => Run.traceAll_nil]
  exact .pure hT hR

theorem LeadsAll.cons (h : G.Leads T m stmt T' R)
    (h' : ∀ ws, R ws → G.LeadsAll T' (m.puts ws) stmts T'' fun ws' => R' (ws ++ ws')) :
    G.LeadsAll T m (stmt :: stmts) T'' R' := by
  unfold LeadsAll
  rw [Run.execAll_cons, show Run.traceAll Run.writesAt G.ctx (stmt :: stmts) G.order = _ from
    funext fun s => Run.traceAll_cons stmt stmts]
  exact Takes.bind h h'

theorem LeadsAll.append {rest : List Stmt} (h : G.LeadsAll T m stmts T' R)
    (h' : ∀ ws, R ws → G.LeadsAll T' (m.puts ws) rest T'' fun ws' => R' (ws ++ ws')) :
    G.LeadsAll T m (stmts ++ rest) T'' R' := by
  unfold LeadsAll
  rw [Run.execAll_append, show Run.traceAll Run.writesAt G.ctx (stmts ++ rest) G.order = _ from
    funext fun s => Run.traceAll_append stmts rest s]
  exact Takes.bind h h'

theorem leadsAll_singleton : G.LeadsAll T m [stmt] T' R ↔ G.Leads T m stmt T' R := by
  unfold LeadsAll Leads
  rw [Run.execAll_singleton, show Run.traceAll Run.writesAt G.ctx [stmt] G.order = _ from
    funext fun s => Run.traceAll_singleton stmt]

theorem leads_block : G.Leads T m (.block stmts) T' R ↔ G.LeadsAll T m stmts T' R := by
  unfold LeadsAll Leads
  rw [Run.exec_block, show Run.trace Run.writesAt G.ctx (.block stmts) G.order = _ from
    funext fun s => Run.trace_block stmts]

theorem leads_comment {text : String} : G.Leads T m (.comment text stmt) T' R ↔ G.Leads T m stmt T' R := by
  unfold Leads
  rw [Run.exec_comment, show Run.trace Run.writesAt G.ctx (.comment text stmt) G.order = _ from
    funext fun s => Run.trace_comment text stmt]

/-! ### Phases -/

/-- At a barrier nothing is written. -/
theorem leads_barrier {fence : Fence} (hT : ∀ t < G.size, ∀ th, T t th → T' t th) (hR : R []) :
    G.Leads T m (.barrier fence) T' R := by
  have hne := G.order_ne_nil
  intro s hs
  have hexec : Run.exec G.ctx (.barrier fence) G.order s = .ok () s.countBarrier := by
    rw [Run.exec, if_neg (by simpa using hne)]
    rfl
  have htrace : Run.trace Run.writesAt G.ctx (.barrier fence) G.order s = [] := by
    rw [Run.trace, if_neg (by simpa using hne)] <;> simp [Run.writesAt]
  rw [htrace]
  exact ⟨_, hexec, ⟨hs.size, fun t ht => hT t ht _ (hs.threads t ht), hs.store,
    fun hchecked => (hs.log hchecked).sound.nextEpoch⟩, hR⟩

/-- The record of accesses is in order whatever the memory was, and whatever the rights are where it is
    not kept. -/
theorem orderly_iff {own : Nat → Slot → Prop} (hown : G.ctx.checkRaces = true → own = G.own)
    (h : G.ctx.checkRaces = true → OneWave G.ctx G.size own) {log : RaceLog} (m m' : Store) :
    (⟨G.ctx, m, own, G.size, h⟩ : Crowd).Orderly log ↔ (G.crowd m').Orderly log := by
  constructor
  · intro ho hchecked
    obtain rfl := hown hchecked
    exact ho hchecked
  · intro ho hchecked
    obtain rfl := hown hchecked
    exact ho hchecked

/-- The threads work side by side. Each one ensures its claim on its own; what they have written
    together is what each one has written, in some order. -/
theorem Leads.phase (own : Nat → Slot → Prop) (hown : G.ctx.checkRaces = true → own = G.own) (Q : Nat → Claim)
    (hstart : ∀ t < G.size, ∀ th, T t th → (⟨G.ctx, m, own, t⟩ : Solo).Ensures stmt (Q t) th [])
    (hT : ∀ t < G.size, ∀ th ws, Q t th ws → T' t th)
    (hR : ∀ es : List (Nat × Write), (∀ e ∈ es, e.1 < G.size ∧ own e.1 e.2.slot) →
      (∀ t < G.size, ∃ th, Q t th (writesOf t es)) → R (es.map (·.2))) : G.Leads T m stmt T' R := by
  intro s hs
  have oneWave : G.ctx.checkRaces = true → OneWave G.ctx G.size own := fun hchecked =>
    hown hchecked ▸ G.oneWave hchecked
  have lockstep := Crowd.Meets.exec (C := ⟨G.ctx, m, own, G.size, oneWave⟩) stmt G.order Q G.nodup
    fun t ht => (G.mem_order t).mp ht
  obtain ⟨s', hexec, hreached, hturns, hclaims, -⟩ := lockstep [] s
    ⟨hs.store, by simp, hs.size, (orderly_iff hown oneWave m m).mpr hs.log⟩
    fun t ht => hstart t ((G.mem_order t).mp ht) _ (hs.threads t ((G.mem_order t).mp ht))
  rw [List.nil_append] at hreached hclaims
  have claims : ∀ t < G.size, Q t (s'.thread t) (writesOf t (Run.trace Run.writesAt G.ctx stmt G.order s)) :=
    fun t ht => hclaims t ((G.mem_order t).mpr ht)
  refine ⟨s', hexec, ⟨hreached.size, fun t ht => hT t ht _ _ (claims t ht), hreached.store,
    (orderly_iff hown oneWave m _).mp hreached.log⟩, hR _ ?_ ?_⟩
  · exact fun e he => ⟨(G.mem_order e.1).mp (hturns e he), hreached.owned e he⟩
  · exact fun t ht => ⟨_, claims t ht⟩

/-! ### Loops of the whole group -/

/-- What a thread is when a variable of it has got a value. -/
def Given (T : Nat → Thread → Prop) (name : Ident) (v : Value) : Nat → Thread → Prop :=
  fun t th => ∃ before, T t before ∧ th = before.bind name v

theorem Takes.give (name : Ident) (v : Value) :
    G.Takes T m (G.order.forM fun t => modify fun s => s.bind t name v) (fun _ => []) (Given T name v) (· = []) := by
  intro s hs
  have turns := Crowd.Meets.turns_silent (C := G.crowd m) (P := fun t th _ => Given T name v t (th.bind name v))
    (Q := fun t th _ => Given T name v t th)
    (fun t ht => Crowd.Meets.declare ((G.mem_order t).mp ht) name v fun th _ => Given T name v t th) G.nodup
  obtain ⟨s', hrun, hreached, -, hgiven, -⟩ := turns [] s ⟨hs.store, by simp, hs.size, hs.log⟩
    fun t ht => ⟨_, hs.threads t ((G.mem_order t).mp ht), rfl⟩
  exact ⟨s', hrun, ⟨hreached.size, fun t ht => hgiven t ((G.mem_order t).mpr ht), hreached.store, hreached.log⟩, rfl⟩

/-- A round of a counted loop with the same bound for all threads. -/
theorem Takes.round {iter : Ident} {body : Stmt} {b : Int64} {k : Nat} (hk : (k : Int) < b.toInt)
    (h : G.Leads (Given T iter (.i64 (Int64.ofNat k))) m body T' R) :
    G.Takes T m (Run.loopStep G.ctx iter body (G.order.map fun t => (t, b)) k) (fun s =>
      let inner := Run.those (G.order.map fun t => (t, b)) fun b => k < b.toInt
      Run.after (inner.forM fun t => modify fun s => s.bind t iter (.i64 (Int64.ofNat k))) s fun _ s =>
        Run.trace Run.writesAt G.ctx body inner s) T' R := by
  have inner : Run.those (G.order.map fun t => (t, b)) (fun b => k < b.toInt) = G.order :=
    (Run.those_eq_of_forall (by simpa using fun _ _ => hk)).trans (by simp [Function.comp_def])
  unfold Run.loopStep
  dsimp only
  rw [inner]
  refine (Takes.give iter (.i64 (Int64.ofNat k))).bind fun ws hws => ?_
  subst hws
  exact h

/-- A counted loop with the same bound for all threads. -/
theorem Leads.loop {iter : Ident} {bound : Exp} {body : Stmt} {b : Int64} (T : Nat → Nat → Thread → Prop)
    (R : Nat → List Write → Prop) (hlimit : b.toInt.toNat ≤ G.ctx.loopLimit)
    (hbound : ∀ t < G.size, ∀ th, T 0 t th → bound.evalInt (th.scope G.ctx.captured) = .ok b)
    (hbody : ∀ k < b.toInt.toNat, ∀ ws, R k ws →
      G.Leads (Given (T k) iter (.i64 (Int64.ofNat k))) (m.puts ws) body (T (k + 1)) fun ws' => R (k + 1) (ws ++ ws'))
    (hR : R 0 []) : G.Leads (T 0) m (.loop iter bound body) (T b.toInt.toNat) (R b.toInt.toNat) := by
  intro s hs
  have hne := G.order_ne_nil
  have hask := Run.ask_eq_of_forall (g := fun t s => bound.evalInt (s.scope G.ctx t)) (a := fun _ => b) fun t ht =>
    hbound t ((G.mem_order t).mp ht) _ (hs.threads t ((G.mem_order t).mp ht))
  have trips : Run.trips (G.order.map fun t => (t, b)) = b.toInt.toNat :=
    Run.trips_eq_of_forall (by simpa using hne) (by simp)
  have rounds : ∀ (count k : Nat) (ws : List Write), k + count = b.toInt.toNat → R k ws →
      G.Takes (T k) (m.puts ws) (Run.countUp (Run.loopStep G.ctx iter body (G.order.map fun t => (t, b))) count k)
        (Run.traceUp (Run.loopStep G.ctx iter body (G.order.map fun t => (t, b))) (fun k s =>
          let inner := Run.those (G.order.map fun t => (t, b)) fun b => k < b.toInt
          Run.after (inner.forM fun t => modify fun s => s.bind t iter (.i64 (Int64.ofNat k))) s fun _ s =>
            Run.trace Run.writesAt G.ctx body inner s) count k)
        (T b.toInt.toNat) fun ws' => R b.toInt.toNat (ws ++ ws') := by
    intro count
    -- On the rounds that are left: in each of them all threads are active.
    induction count with
    | zero =>
      intro k ws hk hws
      rw [Nat.add_zero] at hk
      rw [← hk]
      exact .pure (fun _ _ _ => id) (by simpa using hws)
    | succ count ih =>
      intro k ws hk hws
      refine Takes.bind (Takes.round (by omega) (hbody k (by omega) ws hws)) fun ws' hws' => ?_
      have rest := ih (k + 1) (ws ++ ws') (by omega) hws'
      rw [Store.puts_append] at rest
      exact rest.imp (fun _ _ _ => id) (fun _ _ _ => id) fun ws'' h => by rwa [← List.append_assoc]
  obtain ⟨s', hrun, hs', hR'⟩ := rounds b.toInt.toNat 0 [] (Nat.zero_add _) hR s hs
  refine ⟨s', ?_, ?_⟩
  · rw [Run.exec_loop hne, Run.bind_apply]
    unfold Run.int
    rw [hask]
    dsimp only
    rw [trips, if_neg (Nat.not_lt.mpr hlimit)]
    exact hrun
  · rw [Run.trace, if_neg (by simpa using hne)]
    dsimp only
    unfold Run.int
    rw [Run.after_ok hask, trips, if_neg (Nat.not_lt.mpr hlimit)]
    exact ⟨hs', hR'⟩

theorem those_of_uniform {c : Exp} {b : Bool} {s : GroupState}
    (h : ∀ t < G.size, c.evalBool ((s.thread t).scope G.ctx.captured) = .ok b) :
    Run.loopTest G.ctx c G.order s = .ok (if b then G.order else []) s := by
  have answer : ∀ t ∈ G.order, c.evalBool (s.scope G.ctx t) = .ok b := fun t ht => h t ((G.mem_order t).mp ht)
  have hask := Run.ask_eq_of_forall (g := fun t s => c.evalBool (s.scope G.ctx t)) answer
  have answers : Run.those (G.order.map fun t => (t, b)) id = if b then G.order else [] := by
    cases b with
    | true => exact (Run.those_eq_of_forall (by simp)).trans (by simp [Function.comp_def])
    | false => exact Run.those_eq_nil_of_forall (by simp)
  unfold Run.loopTest Run.condition
  rw [Run.bind_eq_ok]
  exact ⟨_, s, hask, Run.pure_eq_ok.mpr ⟨answers.symm, rfl⟩⟩

/-- Code under a guard about which all threads agree. -/
theorem Leads.when {c : Exp} {b : Bool} (hc : ∀ t < G.size, ∀ th, T t th → Exp.IsBool (th.scope G.ctx.captured) c b)
    (htrue : b = true → G.Leads T m stmt T' R) (hfalse : b = false → (∀ t < G.size, ∀ th, T t th → T' t th) ∧ R []) :
    G.Leads T m (.when c stmt) T' R := by
  intro s hs
  have hne := G.order_ne_nil
  have agree : ∀ t ∈ G.order, Exp.IsBool (s.scope G.ctx t) c b := fun t ht =>
    hc t ((G.mem_order t).mp ht) _ (hs.threads t ((G.mem_order t).mp ht))
  have static : ∀ {b' : Bool}, c.bool? = some b' → b = b' := fun hb' =>
    (hc 0 G.pos _ (hs.threads 0 G.pos)).unique (Exp.eval_of_bool? hb')
  have skipped : (∀ t < G.size, ∀ th, T t th → T' t th) ∧ R [] → ∃ s', (Pure.pure () : Run Unit) s = .ok () s' ∧
      G.Has T' (m.puts []) s' ∧ R [] := fun ⟨hT, hR⟩ =>
    ⟨s, rfl, ⟨hs.size, fun t ht => hT t ht _ (hs.threads t ht), hs.store, hs.log⟩, hR⟩
  -- A condition that is a literal leaves no branch to run.
  unfold Stmt.when
  split
  · exact htrue (static ‹_›) s hs
  · rw [Run.exec_skip, Run.trace_skip]
    exact skipped (hfalse (static ‹_›))
  have hask := Run.ask_eq_of_forall (g := fun t s => c.evalBool (s.scope G.ctx t)) fun t ht => (agree t ht).evalBool
  rw [Run.exec_branch hne, Run.bind_apply, Run.trace_branch hne]
  unfold Run.condition
  dsimp only
  rw [hask, Run.after_ok hask]
  dsimp only
  cases b with
  | true =>
    have all : Run.those (G.order.map fun t => (t, true)) id = G.order :=
      (Run.those_eq_of_forall (by simp)).trans (by simp [Function.comp_def])
    have none : Run.those (G.order.map fun t => (t, true)) not = [] := Run.those_eq_nil_of_forall (by simp)
    obtain ⟨s', hexec, hs', hR⟩ := htrue rfl s hs
    rw [all, none, Run.after_ok hexec, Run.trace_nil, List.append_nil, Run.bind_apply, hexec]
    dsimp only
    rw [Run.exec_nil]
    exact ⟨s', rfl, hs', hR⟩
  | false =>
    have none : Run.those (G.order.map fun t => (t, false)) id = [] := Run.those_eq_nil_of_forall (by simp)
    have all : Run.those (G.order.map fun t => (t, false)) not = G.order :=
      (Run.those_eq_of_forall (by simp)).trans (by simp [Function.comp_def])
    rw [none, all, Run.trace_nil, Run.exec_nil, Run.exec_skip, Run.after_pure, Run.trace_skip]
    exact skipped (hfalse rfl)

/-- A loop that all threads leave together, after `n` rounds. -/
theorem Leads.repeatWhile {c : Exp} {body : Stmt} {n : Nat} (T : Nat → Nat → Thread → Prop)
    (R : Nat → List Write → Prop) (hlimit : n ≤ G.ctx.loopLimit)
    (htest : ∀ j ≤ n, ∀ t < G.size, ∀ th, T j t th → c.evalBool (th.scope G.ctx.captured) = .ok (decide (j < n)))
    (hbody : ∀ j < n, ∀ ws, R j ws → G.Leads (T j) (m.puts ws) body (T (j + 1)) fun ws' => R (j + 1) (ws ++ ws'))
    (hR : R 0 []) : G.Leads (T 0) m (.repeatWhile c body) (T n) (R n) := by
  have rounds : ∀ (k j limit : Nat) (ws : List Write), j + k = n → k ≤ limit → R j ws →
      G.Takes (T j) (m.puts ws) (Run.whileLive (Run.loopTest G.ctx c) (fun live => Run.exec G.ctx body live)
        limit G.order)
        (Run.traceWhile (Run.loopTest G.ctx c) (fun live => Run.exec G.ctx body live)
          (fun live s => Run.trace Run.writesAt G.ctx body live s) limit G.order) (T n) fun ws' => R n (ws ++ ws') := by
    intro k
    -- On the rounds that are left until the test fails in all threads.
    induction k with
    | zero =>
      intro j limit ws hj _ hws s hs
      rw [Nat.add_zero] at hj
      subst hj
      have hstop : Run.loopTest G.ctx c G.order s = .ok [] s := by
        have := those_of_uniform fun t ht => htest j (Nat.le_refl j) t ht _ (hs.threads t ht)
        simpa using this
      have hrun : Run.whileLive (Run.loopTest G.ctx c) (fun live => Run.exec G.ctx body live) limit G.order s =
        .ok () s := by
        cases limit <;> rw [Run.whileLive, Run.bind_apply, hstop] <;> rfl
      have htrace : Run.traceWhile (Run.loopTest G.ctx c) (fun live => Run.exec G.ctx body live)
          (fun live s => Run.trace Run.writesAt G.ctx body live s) limit G.order s = [] := by
        cases limit with
        | zero => rfl
        | succ limit =>
          rw [Run.traceWhile, Run.after_ok hstop]
          rfl
      rw [htrace]
      exact ⟨s, hrun, hs, by simpa using hws⟩
    | succ k ih =>
      intro j limit ws hj hle hws s hs
      obtain ⟨limit, rfl⟩ : ∃ l, limit = l + 1 := ⟨limit - 1, by omega⟩
      have hlt : j < n := by omega
      have hgo : Run.loopTest G.ctx c G.order s = .ok G.order s := by
        have := those_of_uniform fun t ht => htest j (Nat.le_of_lt hlt) t ht _ (hs.threads t ht)
        simpa [hlt] using this
      have hlive : ¬G.order.isEmpty = true := by simpa using G.order_ne_nil
      have step : G.Takes _ _ _ _ _ fun ws' => R n (ws ++ ws') := Takes.bind (hbody j hlt ws hws) fun ws' hws' => by
        have rest := ih (j + 1) limit (ws ++ ws') (by omega) (by omega) hws'
        rw [Store.puts_append] at rest
        exact rest.imp (fun _ _ _ => id) (fun _ _ _ => id) fun ws'' h => by rwa [← List.append_assoc]
      obtain ⟨s', hrun, hs', hR'⟩ := step s hs
      refine ⟨s', ?_, ?_⟩
      · rw [Run.whileLive, Run.bind_apply, hgo]
        dsimp only
        rw [if_neg hlive]
        exact hrun
      · rw [Run.traceWhile, Run.after_ok hgo, if_neg hlive]
        exact ⟨hs', hR'⟩
  have all := rounds n 0 G.ctx.loopLimit [] (Nat.zero_add n) hlimit hR
  unfold Leads
  have hne := G.order_ne_nil
  rw [Run.exec_repeatWhile hne, show Run.trace Run.writesAt G.ctx (.repeatWhile c body) G.order = _ from
    funext fun s => by rw [Run.trace, if_neg (by simpa using hne)]]
  exact all

end Team

/-! ## From phase to phase

What the threads of a group know from phase to phase, and the run of a group from its start. A phase
adds to what each thread knows, and writes what the threads write in it, in some order. -/

/-- All writes are those of the threads. -/
theorem perm_writesOf : ∀ {n : Nat} {es : List (Nat × Write)}, (∀ e ∈ es, e.1 < n) →
    (es.map (·.2)).Perm ((List.range n).flatMap fun t => writesOf t es)
  | 0, es, h => by
    obtain rfl : es = [] := List.eq_nil_iff_forall_not_mem.mpr fun e he => Nat.not_lt_zero _ (h e he)
    rfl
  | n + 1, es, h => by
    -- The writes of the last thread are put behind those of the others.
    have split := (List.filter_append_perm (fun e : Nat × Write => e.1 < n) es).symm.map (·.2)
    have last : es.filter (fun e => !decide (e.1 < n)) = es.filter (·.1 == n) := by
      refine List.filter_congr fun e he => ?_
      have := h e he
      rw [Bool.eq_iff_iff]
      simp
      omega
    have first : ∀ t < n, writesOf t (es.filter fun e => e.1 < n) = writesOf t es := by
      intro t ht
      unfold writesOf
      rw [List.filter_filter]
      congr 1
      refine List.filter_congr fun e _ => ?_
      rw [Bool.and_eq_left_iff_imp]
      intro he
      simpa [eq_of_beq he] using ht
    have before := @perm_writesOf n (es.filter fun e => e.1 < n) fun e he => by
      simpa using (List.mem_filter.mp he).2
    rw [List.map_append, last] at split
    rw [List.range_succ, List.flatMap_append, List.flatMap_singleton]
    refine split.trans (List.Perm.append (before.trans (List.Perm.of_eq ?_)) (.refl _))
    exact List.flatMap_congr fun t ht => first t (List.mem_range.mp ht)

namespace Team
variable {G : Team} {T T' T'' : Nat → Thread → Prop} {m : Store} {B B' : Nat → Scope} {stmt : Stmt} {stmts : List Stmt}
  {R : List Write → Prop} {ws : Nat → List Write}

/-- Each thread knows some variables. -/
def Knowing (G : Team) (B : Nat → Scope) : Nat → Thread → Prop := fun t th => (B t).Le (th.scope G.ctx.captured)

/-- The writes are those of the threads, as often as each thread makes them, in some order. -/
def Apiece (G : Team) (ws : Nat → List Write) :
    List Write → Prop := fun out => out.Perm ((List.range G.size).flatMap ws)

theorem Apiece.eq_nil {out : List Write} (h : G.Apiece (fun _ => []) out) : out = [] :=
  (h.trans (List.Perm.of_eq (List.flatMap_eq_nil_iff.mpr fun _ _ => rfl))).eq_nil

/-- One of the threads, among the others. -/
def member (G : Team) (m : Store) (t : Nat) : Solo := ⟨G.ctx, m, G.own, t⟩

/-- A phase of which is known what each thread writes in it, and how often. The threads may have other rights in it,
    where accesses are not checked. -/
theorem Leads.apiece_of (own : Nat → Slot → Prop) (hown : G.ctx.checkRaces = true → own = G.own)
    (h : ∀ t < G.size, ∀ th, T t th →
      (⟨G.ctx, m, own, t⟩ : Solo).Ensures stmt (fun th' out => T' t th' ∧ out = ws t) th []) :
    G.Leads T m stmt T' (G.Apiece ws) := by
  refine Leads.phase own hown (fun t th out => T' t th ∧ out = ws t) h (fun t _ th out hQ => hQ.1) ?_
  intro es hes hQ
  refine (perm_writesOf fun e he => (hes e he).1).trans (List.Perm.of_eq (List.flatMap_congr fun t ht => ?_))
  obtain ⟨th, -, hout⟩ := hQ t (List.mem_range.mp ht)
  exact hout

theorem Leads.apiece (h : ∀ t < G.size, ∀ th, T t th →
    (G.member m t).Ensures stmt (fun th' out => T' t th' ∧ out = ws t) th []) : G.Leads T m stmt T' (G.Apiece ws) :=
  .apiece_of G.own (fun _ => rfl) h

/-- A phase in which nothing is written. -/
theorem Leads.silent (h : ∀ t < G.size, ∀ th, T t th →
    (G.member m t).Ensures stmt (fun th' out => T' t th' ∧ out = []) th []) : G.Leads T m stmt T' (· = []) :=
  (Leads.apiece h).imp (fun _ _ _ => id) (fun _ _ _ => id) fun _ => Apiece.eq_nil

/-- A phase without writes before others. -/
theorem LeadsAll.after_silent (h : G.Leads T m stmt T' (· = [])) (h' : G.LeadsAll T' m stmts T'' R) :
    G.LeadsAll T m (stmt :: stmts) T'' R :=
  LeadsAll.cons h fun ws hws => by
    subst hws
    exact h'

/-- A new variable of each thread gets its first value. -/
theorem Leads.declareInit {name : Ident} {type : ScalarType} {x : Exp} {v : Nat → Value}
    (hname : ∀ t < G.size, B t name = none) (hx : ∀ t < G.size, x.eval (B t) = .ok (v t))
    (htype : ∀ t < G.size, (v t).type = type) :
    G.Leads (G.Knowing B) m (.declareInit name type x) (G.Knowing fun t => (B t).set name (v t)) (· = []) :=
  .silent fun t ht _ hth => Solo.ensures_declareInit_of_known hth (hname t ht) (hx t ht) (htype t ht)
    fun _ hth' _ => ⟨hth', rfl⟩

/-- A variable of each thread gets the answer to a question. -/
theorem Leads.ask {which : Query} {name : Ident} :
    G.Leads (G.Knowing B) m (Launch.ask which name)
      (G.Knowing fun t => (B t).set name (.i64 (Run.answer G.ctx t which))) (· = []) := by
  refine .silent fun t ht th hth => ?_
  rw [Launch.ask, Solo.ensures_seq, Solo.ensuresAll_cons, Solo.ensuresAll_singleton]
  refine Solo.ensures_declare ?_
  rw [Solo.Ensures]
  dsimp only
  rw [Thread.bind_bind]
  exact ⟨Thread.set_le_scope_bind hth, rfl⟩

/-! ### From the start of a group -/

theorem orderly_empty (G : Team) (m : Store) : (G.crowd m).Orderly {} := by
  intro hchecked l _
  exact ⟨fun e w h => by simp at h, Nat.le_refl _, fun _ w hw => by simp at hw⟩

end Team
end SegKernel
