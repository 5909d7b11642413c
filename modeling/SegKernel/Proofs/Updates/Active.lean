import SegKernel.Proofs.Execution.Triples

/-! Code that some threads of a group run while the others wait. What the threads write is seen by those
    whose turns come later, so what holds is said of the memory and of all threads at once. -/

namespace SegKernel

/-- What holds of the memory that threads share, and of the threads. -/
abbrev Scene := Store → (Nat → Thread) → Prop

/-- The memory is as `M` says, and each of some threads as `T` says. -/
def Scene.of (active : List Nat) (M : Store → Prop) (T : Nat → Thread → Prop) : Scene := fun m th =>
  M m ∧ ∀ t ∈ active, T t (th t)

/-- The computation ends without a fault and takes some threads from one scene to another. The other
    threads stay as they are. -/
def Run.Brings (active : List Nat) (P : Scene) (r : Run Unit) (Q : Scene) : Prop :=
  ∀ s, (∀ t ∈ active, t < s.threads.size) → P s.store s.thread →
    ∃ s', r s = .ok () s' ∧ s'.threads.size = s.threads.size ∧ (∀ t ∉ active, s'.thread t = s.thread t) ∧
      Q s'.store s'.thread

namespace Run.Brings
open GroupState
variable {active A : List Nat} {P Q R P' Q' : Scene} {r r' : Run Unit} {ctx : GroupContext}
  {M M' : Store → Prop} {T T' : Nat → Thread → Prop}

theorem pure (h : ∀ m th, P m th → Q m th) : Brings active P (Pure.pure ()) Q := fun s _ hP =>
  ⟨s, rfl, rfl, fun _ _ => rfl, h _ _ hP⟩

theorem bind (h : Brings active P r Q) (h' : Brings active Q r' R) : Brings active P (do r; r') R := by
  intro s hlt hP
  obtain ⟨s₁, h₁, hsize₁, hframe₁, hQ⟩ := h s hlt hP
  obtain ⟨s₂, h₂, hsize₂, hframe₂, hR⟩ := h' s₁ (fun t ht => hsize₁ ▸ hlt t ht) hQ
  refine ⟨s₂, ?_, hsize₂.trans hsize₁, fun t ht => (hframe₂ t ht).trans (hframe₁ t ht), hR⟩
  rw [Run.bind_apply, h₁]
  exact h₂

theorem imp (h : Brings active P r Q) (hP : ∀ m th, P' m th → P m th) (hQ : ∀ m th, Q m th → Q' m th) :
    Brings active P' r Q' := by
  intro s hlt hP'
  obtain ⟨s', hr, hsize, hframe, hQ'⟩ := h s hlt (hP _ _ hP')
  exact ⟨s', hr, hsize, hframe, hQ _ _ hQ'⟩

/-- What is known to exist beforehand can be named. -/
theorem of_exists {ι : Sort*} {P : ι → Scene} (h : ∀ i, Brings active (P i) r Q) :
    Brings active (fun m th => ∃ i, P i m th) r Q := by
  rintro s hlt ⟨i, hP⟩
  exact h i s hlt hP

theorem of_and {p : Prop} (h : p → Brings active P r Q) : Brings active (fun m th => p ∧ P m th) r Q := by
  rintro s hlt ⟨hp, hP⟩
  exact h hp s hlt hP

/-- Threads that wait stay as they are. -/
theorem widen (h : Brings A P r Q) (hle : ∀ t ∈ A, t ∈ active) (U : Nat → Thread → Prop) :
    Brings active (fun m th => P m th ∧ ∀ t ∈ active, t ∉ A → U t (th t)) r
      (fun m th => Q m th ∧ ∀ t ∈ active, t ∉ A → U t (th t)) := by
  intro s hlt ⟨hP, hU⟩
  obtain ⟨s', hr, hsize, hframe, hQ⟩ := h s (fun t ht => hlt t (hle t ht)) hP
  exact ⟨s', hr, hsize, fun t ht => hframe t fun hA => ht (hle t hA), hQ, fun t ht hA => by
    rw [hframe t hA]
    exact hU t ht hA⟩

/-! ### Turns -/

/-- The threads take their turns. What holds after a turn depends on the turns so far. -/
theorem forM {turn : Nat → Run Unit} (I : List Nat → Scene)
    (h : ∀ before t after, active = before ++ t :: after → Brings [t] (I before) (turn t) (I (before ++ [t]))) :
    Brings active (I []) (active.forM turn) (I active) := by
  have rest : ∀ after before, active = before ++ after → Brings after (I before) (after.forM turn) (I active) := by
    intro after
    induction after with
    | nil =>
      intro before e
      rw [List.append_nil] at e
      exact pure fun _ _ hI => e ▸ hI
    | cons t after ih =>
      intro before e
      have first := h before t after e
      have later := ih (before ++ [t]) (by rw [e, List.append_assoc, List.singleton_append])
      rw [Run.forM_cons]
      intro s hlt hI
      obtain ⟨s₁, h₁, hsize₁, hframe₁, hI₁⟩ := first s (by simpa using hlt t List.mem_cons_self) hI
      obtain ⟨s₂, h₂, hsize₂, hframe₂, hI₂⟩ := later s₁ (fun t' ht' => hsize₁ ▸ hlt t' (List.mem_cons_of_mem t ht')) hI₁
      refine ⟨s₂, ?_, hsize₂.trans hsize₁, fun t' ht' => ?_, hI₂⟩
      · rw [Run.bind_apply, h₁]
        exact h₂
      · rw [List.mem_cons, not_or] at ht'
        exact (hframe₂ t' ht'.2).trans (hframe₁ t' (by simpa using ht'.1))
  exact rest active [] rfl

/-! ### Statements -/

/-- The threads work side by side. Each one ensures its claim on its own, and reads no slot that another
    one may write. What they have written together is what each one has written, in some order. -/
theorem phase {stmt : Stmt} {m : Store} (hoff : ctx.checkRaces = false) (hnd : active.Nodup) (own : Nat → Slot → Prop)
    (C : Nat → Claim) (hstart : ∀ t ∈ active, ∀ th, T t th → (⟨ctx, m, own, t⟩ : Solo).Ensures stmt (C t) th []) :
    Brings active (Scene.of active (· = m) T) (Run.exec ctx stmt active) fun m' th =>
      ∃ es : List (Nat × Write), m' = m.puts (es.map (·.2)) ∧ (∀ e ∈ es, e.1 ∈ active ∧ own e.1 e.2.slot) ∧
        ∀ t ∈ active, C t (th t) (writesOf t es) := by
  rintro s hlt ⟨rfl, hT⟩
  have hon : ctx.checkRaces ≠ true := by simp [hoff]
  let crowd : Crowd := ⟨ctx, s.store, own, s.threads.size, fun h => absurd h hon⟩
  obtain ⟨s', hr, hreached, hwriters, hC, hframe⟩ := Crowd.Meets.exec (C := crowd) stmt active C hnd hlt [] s
    ⟨rfl, by simp, rfl, fun h => absurd h hon⟩ fun t ht => hstart t ht _ (hT t ht)
  exact ⟨s', hr, hreached.size, hframe.others, _, hreached.store, fun e he => ⟨hwriters e he, hreached.owned e he⟩, hC⟩

/-- The threads work side by side and write nothing. -/
theorem silent {stmt : Stmt} (hoff : ctx.checkRaces = false) (hnd : active.Nodup)
    (h : ∀ m, M m → ∀ t ∈ active, ∀ th, T t th →
      (⟨ctx, m, fun _ _ => False, t⟩ : Solo).Ensures stmt (fun th' ws => T' t th' ∧ ws = []) th []) :
    Brings active (Scene.of active M T) (Run.exec ctx stmt active) (Scene.of active M T') := by
  rintro s hlt ⟨hM, hT⟩
  obtain ⟨s', hr, hsize, hframe, es, hm, hes, hT'⟩ := phase hoff hnd (fun _ _ => False)
    (fun t th' ws => T' t th' ∧ ws = []) (h s.store hM) s hlt ⟨rfl, hT⟩
  obtain rfl : es = [] := List.eq_nil_iff_forall_not_mem.mpr fun e he => (hes e he).2
  refine ⟨s', hr, hsize, hframe, ?_, fun t ht => (hT' t ht).1⟩
  rw [hm]
  exact hM

theorem silentAll {stmts : List Stmt} (hoff : ctx.checkRaces = false) (hnd : active.Nodup)
    (h : ∀ m, M m → ∀ t ∈ active, ∀ th, T t th →
      (⟨ctx, m, fun _ _ => False, t⟩ : Solo).EnsuresAll stmts (fun th' ws => T' t th' ∧ ws = []) th []) :
    Brings active (Scene.of active M T) (Run.execAll ctx stmts active) (Scene.of active M T') := by
  rw [← Run.exec_seq_eq]
  exact silent hoff hnd fun m hm t ht th hth => by
    rw [Solo.ensures_seq]
    exact h m hm t ht th hth

theorem nil {stmts : List Stmt} (hstmts : stmts = []) (h : ∀ m th, P m th → Q m th) :
    Brings active P (Run.execAll ctx stmts active) Q := by
  rw [hstmts, Run.execAll_nil]
  exact pure h

theorem cons {stmt : Stmt} {stmts : List Stmt} (h : Brings active P (Run.exec ctx stmt active) Q)
    (h' : Brings active Q (Run.execAll ctx stmts active) R) :
    Brings active P (Run.execAll ctx (stmt :: stmts) active) R := by
  rw [Run.execAll_cons]
  exact h.bind h'

theorem append (as : List Stmt) {bs : List Stmt} (h : Brings active P (Run.execAll ctx as active) Q)
    (h' : Brings active Q (Run.execAll ctx bs active) R) : Brings active P (Run.execAll ctx (as ++ bs) active) R := by
  rw [Run.execAll_append]
  exact h.bind h'

theorem single {stmt : Stmt} (h : Brings active P (Run.exec ctx stmt active) Q) :
    Brings active P (Run.execAll ctx [stmt] active) Q := by
  rwa [Run.execAll_singleton]

theorem memFence {fence : Fence} : Brings active P (Run.exec ctx (.memFence fence) active) P := by
  rw [Run.exec]
  split <;> exact pure fun _ _ => id

theorem block {stmts : List Stmt} (h : Brings active P (Run.execAll ctx stmts active) Q) :
    Brings active P (Run.exec ctx (.block stmts) active) Q := by
  rwa [Run.exec_block]

theorem comment {text : String} {stmt : Stmt} (h : Brings active P (Run.exec ctx stmt active) Q) :
    Brings active P (Run.exec ctx (.comment text stmt) active) Q := by
  rwa [Run.exec_comment]

theorem those_eq_filter (b : Nat → Bool) : Run.those (active.map fun t => (t, b t)) id = active.filter b := by
  unfold Run.those
  rw [List.filter_map, List.map_map]
  exact List.map_id _

/-- Code that some of the threads run. -/
theorem when {c : Exp} {stmt : Stmt} (b : Nat → Bool)
    (hc : ∀ m th, P m th → ∀ t ∈ active, Exp.IsBool ((th t).scope ctx.captured) c (b t))
    (h : Brings active P (Run.exec ctx stmt (active.filter b)) Q) :
    Brings active P (Run.exec ctx (.when c stmt) active) Q := by
  intro s hlt hP
  have decided : ∀ {b' : Bool}, c.bool? = some b' → ∀ t ∈ active, b t = b' := fun hb' t ht =>
    Exp.IsBool.unique (hc _ _ hP t ht) (Exp.eval_of_bool? hb')
  obtain ⟨s', hr, hs'⟩ := h s hlt hP
  refine ⟨s', ?_, hs'⟩
  unfold Stmt.when
  split
  · rw [List.filter_eq_self.mpr (decided ‹_›)] at hr
    exact hr
  · rw [List.filter_eq_nil_iff.mpr fun t ht => by rw [decided ‹_› t ht]; exact Bool.false_ne_true, Run.exec_nil] at hr
    rwa [Run.exec_skip]
  -- Where no thread is active, no condition is asked for.
  · by_cases hne : active = []
    · subst hne
      rw [List.filter_nil, Run.exec_nil] at hr
      rwa [Run.exec_nil]
    · have hask := Run.ask_eq_of_forall (g := fun t s => c.evalBool (s.scope ctx t)) (a := b)
        fun t ht => (hc _ _ hP t ht).evalBool
      rw [Run.exec_branch hne, Run.bind_apply]
      unfold Run.condition
      rw [hask]
      dsimp only
      rw [those_eq_filter, Run.bind_apply, hr]
      dsimp only
      rw [Run.exec_skip]
      rfl

end Run.Brings

/-! ### Contention -/

/-- A loop whose threads contend. In each round some of those that are left get their way, one after
    another, and the others are ready to try again. -/
structure Run.Contends {γ : Type} (ctx : GroupContext) (all : List Nat) (c : Exp) (body : Stmt)
    (Shown : γ → Store → Prop) (Ready : γ → Nat → Thread → Prop) (Finished : Nat → Thread → Prop)
    (advance : γ → Nat → γ) : Prop where
  ready : ∀ {x t th}, t ∈ all → Ready x t th → c.evalBool (th.scope ctx.captured) = .ok true
  finished : ∀ {t th}, t ∈ all → Finished t th → c.evalBool (th.scope ctx.captured) = .ok false
  round : ∀ {todo : List Nat} {x}, todo ≠ [] → todo.Nodup → (∀ t ∈ todo, t ∈ all) →
    Run.Brings todo (Scene.of todo (Shown x) (Ready x)) (Run.exec ctx body todo) fun m th =>
      ∃ done rest, done ≠ [] ∧ (done ++ rest).Perm todo ∧ Shown (done.foldl advance x) m ∧
        (∀ t ∈ rest, Ready (done.foldl advance x) t (th t)) ∧ ∀ t ∈ done, Finished t (th t)

namespace Run.Contends
variable {γ : Type} {ctx : GroupContext} {all : List Nat} {c : Exp} {body : Stmt} {Shown : γ → Store → Prop}
  {Ready : γ → Nat → Thread → Prop} {Finished : Nat → Thread → Prop} {advance : γ → Nat → γ}

/-- The threads that are left after a round. -/
theorem filter_rest {done rest todo : List Nat} (hperm : (done ++ rest).Perm todo) (hnd : todo.Nodup) :
    (todo.filter (· ∈ rest)).Perm rest := by
  refine (hperm.symm.filter _).trans ?_
  have hapart := (List.nodup_append.mp (hperm.nodup_iff.mpr hnd)).2.2
  rw [List.filter_append, List.filter_eq_nil_iff.mpr fun t ht hr => hapart t ht t (of_decide_eq_true hr) rfl,
    List.nil_append, List.filter_eq_self.mpr fun t ht => decide_eq_true ht]

theorem test (h : Run.Contends ctx all c body Shown Ready Finished advance) {live : List Nat} {go : Nat → Bool} {x : γ}
    {s : GroupState} (hall : ∀ t ∈ live, t ∈ all)
    (hlive : ∀ t ∈ live, if go t then Ready x t (s.thread t) else Finished t (s.thread t)) :
    Run.loopTest ctx c live s = .ok (live.filter go) s := by
  have hask := Run.ask_eq_of_forall (g := fun t s => c.evalBool (s.scope ctx t)) (a := go) (s := s)
    fun t ht => by
      have := hlive t ht
      cases hgo : go t with
      | true => exact h.ready (hall t ht) (by rwa [hgo, if_pos rfl] at this)
      | false => exact h.finished (hall t ht) (by rwa [hgo, if_neg Bool.false_ne_true] at this)
  unfold Run.loopTest Run.condition
  rw [Run.bind_apply, hask]
  dsimp only
  rw [Run.Brings.those_eq_filter]
  rfl

/-- A loop with no threads left ends. -/
theorem stop (h : Run.Contends ctx all c body Shown Ready Finished advance) (limit : Nat) {live : List Nat}
    {go : Nat → Bool} {x : γ} {s : GroupState} (hall : ∀ t ∈ live, t ∈ all) (hnone : live.filter go = [])
    (hlive : ∀ t ∈ live, if go t then Ready x t (s.thread t) else Finished t (s.thread t)) :
    Run.whileLive (Run.loopTest ctx c) (fun live => Run.exec ctx body live) limit live s = .ok () s ∧
      ∀ t ∈ live, Finished t (s.thread t) := by
  refine ⟨?_, fun t ht => ?_⟩
  · have htest := h.test hall hlive
    rw [hnone] at htest
    cases limit with
    | zero | succ => rw [Run.whileLive, Run.bind_apply, htest]; rfl
  · have := hlive t ht
    rwa [if_neg (by simpa using List.filter_eq_nil_iff.mp hnone t ht)] at this

/-- The loop ends within as many rounds as threads are left. They have got their way one after another. -/
theorem whileLive (h : Run.Contends ctx all c body Shown Ready Finished advance) :
    ∀ (limit : Nat) (live : List Nat) (go : Nat → Bool) (x : γ), (∀ t ∈ live, t ∈ all) → live.Nodup →
      (live.filter go).length ≤ limit →
      Run.Brings live (fun m th => Shown x m ∧ ∀ t ∈ live, if go t then Ready x t (th t) else Finished t (th t))
        (Run.whileLive (Run.loopTest ctx c) (fun live => Run.exec ctx body live) limit live)
        fun m th => ∃ order : List Nat, order.Perm (live.filter go) ∧ Shown (order.foldl advance x) m ∧
          ∀ t ∈ live, Finished t (th t) := by
  intro limit
  induction limit with
  | zero =>
    intro live go x hall hnd hlength s hlt ⟨hx, hlive⟩
    have hnone : live.filter go = [] := List.length_eq_zero_iff.mp (by omega)
    obtain ⟨hr, hfinished⟩ := h.stop 0 hall hnone hlive
    exact ⟨s, hr, rfl, fun _ _ => rfl, [], by rw [hnone], hx, hfinished⟩
  | succ limit ih =>
    intro live go x hall hnd hlength s hlt ⟨hx, hlive⟩
    by_cases hnone : live.filter go = []
    · obtain ⟨hr, hfinished⟩ := h.stop (limit + 1) hall hnone hlive
      exact ⟨s, hr, rfl, fun _ _ => rfl, [], by rw [hnone], hx, hfinished⟩
    · have htodo : ∀ t ∈ live.filter go, t ∈ live ∧ go t = true := fun t ht => List.mem_filter.mp ht
      have hnd' := hnd.filter go
      obtain ⟨s₁, h₁, hsize₁, hframe₁, done, rest, hdone, hperm, hshown, hready, hfinished⟩ :=
        h.round hnone hnd' (fun t ht => hall t (htodo t ht).1) s (fun t ht => hlt t (htodo t ht).1)
          ⟨hx, fun t ht => by simpa [(htodo t ht).2] using hlive t (htodo t ht).1⟩
      have hrest := filter_rest hperm hnd'
      -- A round leaves fewer threads in the loop, since at least one has got its way.
      have hfewer : ((live.filter go).filter (· ∈ rest)).length ≤ limit := by
        have := hperm.length_eq
        have := List.length_pos_iff.mpr hdone
        rw [List.length_append] at *
        rw [hrest.length_eq]
        omega
      obtain ⟨s₂, h₂, hsize₂, hframe₂, order, horder, hshown', hfinished'⟩ :=
        ih (live.filter go) (· ∈ rest) _ (fun t ht => hall t (htodo t ht).1) hnd' hfewer s₁
          (fun t ht => hsize₁ ▸ hlt t (htodo t ht).1) ⟨hshown, fun t ht => by
            by_cases hr : t ∈ rest
            · simpa [hr] using hready t hr
            · simpa [hr] using hfinished t ((List.mem_append.mp (hperm.mem_iff.mpr ht)).resolve_right hr)⟩
      refine ⟨s₂, ?_, hsize₂.trans hsize₁, fun t ht => ?_, done ++ order, ?_, ?_, fun t ht => ?_⟩
      · rw [Run.whileLive, Run.bind_apply, h.test hall hlive]
        dsimp only
        rw [if_neg (by simpa using hnone), Run.bind_apply, h₁]
        exact h₂
      · have hnot : t ∉ live.filter go := fun hmem => ht (htodo t hmem).1
        exact (hframe₂ t hnot).trans (hframe₁ t hnot)
      · exact (List.Perm.append_left done (horder.trans hrest)).trans hperm
      · rwa [List.foldl_append]
      · by_cases hgo : go t = true
        · exact hfinished' t (List.mem_filter.mpr ⟨ht, hgo⟩)
        · have hnot : t ∉ live.filter go := fun hmem => hgo (htodo t hmem).2
          rw [hframe₂ t hnot, hframe₁ t hnot]
          simpa [hgo] using hlive t ht

/-- The threads get their way one after another, in as many rounds as there are threads. -/
theorem repeatWhile (h : Run.Contends ctx all c body Shown Ready Finished advance) (hnd : all.Nodup)
    (hlimit : all.length ≤ ctx.loopLimit) (x : γ) :
    Run.Brings all (Scene.of all (Shown x) (Ready x)) (Run.exec ctx (.repeatWhile c body) all) fun m th =>
      ∃ order : List Nat, order.Perm all ∧ Shown (order.foldl advance x) m ∧ ∀ t ∈ all, Finished t (th t) := by
  by_cases hne : all = []
  · subst hne
    rw [Run.exec_nil]
    exact Run.Brings.pure fun m th hx => ⟨[], .nil, hx.1, fun t ht => absurd ht List.not_mem_nil⟩
  · have hfilter : all.filter (fun _ => true) = all := List.filter_true all
    have hloop := h.whileLive ctx.loopLimit all (fun _ => true) x (fun _ => id) hnd (by rwa [hfilter])
    rw [Run.exec_repeatWhile hne]
    exact hloop.imp (fun m th hx => hx) fun m th hx => by rwa [hfilter] at hx

end Run.Contends
end SegKernel
