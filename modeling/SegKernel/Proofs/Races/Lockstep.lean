import SegKernel.Proofs.Evaluation.Known
import SegKernel.Proofs.Races.Rights
import SegKernel.Proofs.Schedules.Turns

/-! Code that heeds the rights of its thread, whatever the values that it reads. Threads that heed their
    rights in lockstep do not race. A run may stop with another fault. -/

namespace SegKernel

namespace Watch
open GroupState

section
variable (W : Watch) (R : W.Rights) (t : Nat)

/-- The thread has the right to an access, if others see it. -/
def Permits (view : View) (index : Int64) (isWrite : Bool) : Prop :=
  view.space ≠ .thread → R.may t ⟨view.space, view.array, index⟩ isWrite

mutual

/-- The thread heeds its rights, and the claim holds in the end, if there is no fault before. -/
def Heeds : Stmt → (Scope → Prop) → Scope → Prop
  | .skip, Q | .memFence _, Q | .declareArray .., Q => Q
  | .seq stmts, Q => HeedsAll stmts Q
  | .comment _ body, Q => Heeds body Q
  | .declare name type _, Q => fun σ => Q (σ.set name (.zero type))
  | .set name x, Q => fun σ => ∀ v, x.eval σ = .ok v → Q (σ.set name v)
  | .read dest view index, Q => fun σ =>
    ∀ i, index.evalInt σ = .ok i → W.Permits R t view i false ∧ ∀ v, Q (σ.set dest v)
  | .write view index _, Q => fun σ => ∀ i, index.evalInt σ = .ok i → W.Permits R t view i true ∧ Q σ
  | .branch c ifTrue ifFalse, Q => fun σ =>
    (c.evalBool σ = .ok true → Heeds ifTrue Q σ) ∧ (c.evalBool σ = .ok false → Heeds ifFalse Q σ)
  | .loop iter bound body, Q => fun σ =>
    ∀ n, bound.evalInt σ = .ok n → ∃ I : Nat → Scope → Prop, I 0 σ ∧
      (∀ k σ, k < n.toInt.toNat → I k σ → Heeds body (I (k + 1)) (σ.set iter (.i64 (Int64.ofNat k)))) ∧
      ∀ σ, I n.toInt.toNat σ → Q σ
  | .query which dest, Q => fun σ => Q (σ.set dest (.i64 (Run.answer W.ctx t which)))
  | .repeatWhile .., _ | .barrier _, _ | .update .., _ | .compareSwap .., _ => fun _ => False

def HeedsAll : List Stmt → (Scope → Prop) → Scope → Prop
  | [], Q => Q
  | stmt :: stmts, Q => Heeds stmt (HeedsAll stmts Q)

end
end

/-! ### One turn -/

variable {W : Watch} {R : W.Rights} {t : Nat} {s : GroupState} {Q : Scope → Prop}

/-- The group is whole, and no right was violated. -/
structure Fine (R : W.Rights) (s : GroupState) : Prop where
  size : s.threads.size = W.size
  respected : W.Respected R s.races

/-- What a thread leaves when its turn is over. -/
structure Left (R : W.Rights) (t : Nat) (Q : Scope → Prop) (s s' : GroupState) : Prop where
  fine : W.Fine R s'
  only : OnlyThread t s s'
  claim : Q (s'.scope W.ctx t)

theorem scope_bind (ht : t < s.threads.size) (name : Ident) (v : Value) :
    (s.bind t name v).scope W.ctx t = (s.scope W.ctx t).set name v := by
  funext x
  rw [scope_eq, bind_eq, thread_modifyThread_self _ ht, Thread.scope_bind]
  rfl

theorem Fine.bind (h : W.Fine R s) (ht : t < W.size) (name : Ident) (v : Value)
    (hQ : Q ((s.scope W.ctx t).set name v)) : W.Left R t Q s (s.bind t name v) := by
  refine ⟨⟨(size_modifyThread s t _).trans h.size, h.respected⟩, onlyThread_bind t s name v, ?_⟩
  rwa [scope_bind (by rw [h.size]; exact ht)]

theorem Fine.assign (h : W.Fine R s) (ht : t < W.size) (name : Ident) {v : Value}
    (hQ : Q ((s.scope W.ctx t).set name v)) : Run.Ends (Run.assign t name v) (fun _ s' => W.Left R t Q s s') s := by
  unfold Run.assign
  refine .bind (.evaluate (P := fun _ s' => s' = s) (Run.peaceful_assignable s t name v) fun _ _ => rfl) ?_
  rintro _ s' rfl
  exact .modify (h.bind ht name v hQ)

/-- An access within the rights is recorded. -/
theorem Fine.track (h : W.Fine R s) (ht : t < W.size) {view : View} {i : Int64} {isWrite : Bool}
    (hmay : W.Permits R t view i isWrite) :
    Run.Ends (Run.track W.ctx t view i isWrite) (fun _ s' => W.Fine R s' ∧ s'.threads = s.threads) s := by
  by_cases hcheck : W.ctx.checkRaces = true ∧ view.space ≠ .thread
  · obtain ⟨log, hlog, hrespected⟩ := h.respected.record ht (hmay hcheck.2)
    exact .of_ok ((Run.track_eq_ok_of_checked hcheck.1 hcheck.2).mpr ⟨log, hlog, rfl⟩) ⟨⟨h.size, hrespected⟩, rfl⟩
  · refine .of_ok (a := ()) ?_ ⟨h, rfl⟩
    unfold Run.track
    rw [if_neg hcheck]

theorem int_ends (x : Exp) {P : Int64 → GroupState → Prop} (h : ∀ i, x.evalInt (s.scope W.ctx t) = .ok i → P i s) :
    Run.Ends (Run.int W.ctx t x) P s := .evaluate (Exp.peaceful_evalInt _ x) h

theorem value_ends (x : Exp) {P : Value → GroupState → Prop} (h : ∀ v, x.eval (s.scope W.ctx t) = .ok v → P v s) :
    Run.Ends (Run.value W.ctx t x) P s := .evaluate (Exp.peaceful_eval _ x) h

theorem read_turn (h : W.Fine R s) (ht : t < W.size) {dest : Ident} {view : View} {index : Exp}
    (hheeds : W.Heeds R t (.read dest view index) Q (s.scope W.ctx t)) :
    Run.Ends (Run.readTurn W.ctx dest view index t) (fun _ s' => W.Left R t Q s s') s := by
  rw [Heeds] at hheeds
  refine .bind (int_ends index (P := fun i s' => s' = s ∧ index.evalInt (s.scope W.ctx t) = .ok i) fun i hi =>
    ⟨rfl, hi⟩) ?_
  rintro i s' ⟨rfl, hi⟩
  obtain ⟨hmay, hQ⟩ := hheeds i hi
  refine .bind (.evaluate (P := fun _ a => a = s') (Run.peaceful_element s' t view i) fun _ _ => rfl) ?_
  rintro v a rfl
  refine .bind (h.track ht hmay) ?_
  rintro _ b ⟨hb, hthreads⟩
  have scope : b.scope W.ctx t = a.scope W.ctx t := scope_of_threads W.ctx hthreads t
  refine (hb.assign ht dest (v := v) (Q := Q) (scope ▸ hQ v)).imp fun _ c hc => ?_
  exact ⟨hc.fine, (onlyThread_of_threads hthreads).trans hc.only, hc.claim⟩

theorem scope_modifyBuffer (view : View) (f : Buffer → Buffer) :
    (s.modifyBuffer t view f).scope W.ctx t = s.scope W.ctx t := by
  unfold modifyBuffer
  split
  · rfl
  · rfl
  · rw [scope_eq, scope_eq, thread_modifyThread]
    split <;> rfl

theorem races_modifyBuffer (view : View) (f : Buffer → Buffer) : (s.modifyBuffer t view f).races = s.races := by
  unfold modifyBuffer
  split <;> rfl

theorem write_turn (h : W.Fine R s) (ht : t < W.size) {view : View} {index x : Exp}
    (hheeds : W.Heeds R t (.write view index x) Q (s.scope W.ctx t)) :
    Run.Ends (Run.writeTurn W.ctx view index x t) (fun _ s' => W.Left R t Q s s') s := by
  rw [Heeds] at hheeds
  refine .bind (int_ends index (P := fun i s' => s' = s ∧ index.evalInt (s.scope W.ctx t) = .ok i) fun i hi =>
    ⟨rfl, hi⟩) ?_
  rintro i s' ⟨rfl, hi⟩
  obtain ⟨hmay, hQ⟩ := hheeds i hi
  refine .bind (value_ends x (P := fun _ a => a = s') fun _ _ => rfl) ?_
  rintro v a rfl
  have stored : Run.Ends (Run.store t view i v)
      (fun _ b => W.Fine R b ∧ OnlyThread t a b ∧ b.scope W.ctx t = a.scope W.ctx t) a := by
    unfold Run.store
    refine .bind (.evaluate (P := fun _ b => b = a) (Run.peaceful_storable a t view i v) fun _ _ => rfl) ?_
    rintro p b rfl
    refine .modify ⟨⟨?_, ?_⟩, onlyThread_modifyBuffer t b view _, scope_modifyBuffer view _⟩
    · exact (onlyThread_modifyBuffer t b view _).size.trans h.size
    · rw [races_modifyBuffer]
      exact h.respected
  refine .bind stored ?_
  rintro _ b ⟨hb, honly, hscope⟩
  refine (hb.track ht hmay).imp ?_
  rintro _ c ⟨hc, hthreads⟩
  refine ⟨hc, honly.trans (onlyThread_of_threads hthreads), ?_⟩
  rw [scope_of_threads W.ctx hthreads, hscope]
  exact hQ

theorem set_turn (h : W.Fine R s) (ht : t < W.size) {name : Ident} {x : Exp}
    (hheeds : W.Heeds R t (.set name x) Q (s.scope W.ctx t)) :
    Run.Ends (do let v ← Run.value W.ctx t x; Run.assign t name v) (fun _ s' => W.Left R t Q s s') s := by
  rw [Heeds] at hheeds
  refine .bind (value_ends x (P := fun v s' => s' = s ∧ x.eval (s.scope W.ctx t) = .ok v) fun v hv => ⟨rfl, hv⟩) ?_
  rintro v s' ⟨rfl, hv⟩
  exact h.assign ht name (hheeds v hv)

theorem declareArray_turn (h : W.Fine R s) {name : Ident} {type : ScalarType} {length : Exp} {space : Space}
    (hQ : Q (s.scope W.ctx t)) :
    Run.Ends (Run.declareArray W.ctx t name type length space) (fun _ s' => W.Left R t Q s s') s := by
  unfold Run.declareArray
  refine .bind (int_ends length (P := fun _ s' => s' = s) fun _ _ => rfl) ?_
  rintro i s' rfl
  refine .bind (.evaluate (P := fun _ a => a = s') (peaceful_arrayLength name i) fun _ _ => rfl) ?_
  rintro n a rfl
  cases space with
  | shared =>
    have hthreads := declareShared_threads a name type n
    refine .modify ⟨⟨by rw [hthreads, h.size], ?_⟩, onlyThread_of_threads hthreads, ?_⟩
    · unfold declareShared
      split <;> exact h.respected
    · rw [scope_of_threads W.ctx hthreads]
      exact hQ
  | thread =>
    refine .modify ⟨⟨(size_modifyThread a t _).trans h.size, h.respected⟩, onlyThread_modifyThread t a _, ?_⟩
    rw [scope_eq, declareOwn, thread_modifyThread]
    split <;> exact hQ
  | global => exact .throw (Fault.not_isRace (by simp))

/-! ### Many threads -/

/-- The computation takes the claims of some threads to others, and leaves the other threads alone. -/
def Steps (R : W.Rights) (active : List Nat) (P Q : Nat → Scope → Prop) (r : Run Unit) : Prop :=
  ∀ s, W.Fine R s → (∀ t ∈ active, P t (s.scope W.ctx t)) →
    Run.Ends r (fun _ s' => W.Fine R s' ∧ (∀ t ∈ active, Q t (s'.scope W.ctx t)) ∧
      ∀ t, t ∉ active → s'.thread t = s.thread t) s

namespace Steps
variable {active active' all : List Nat} {P Q P' Q' S : Nat → Scope → Prop} {r r' : Run Unit}

theorem pure (P : Nat → Scope → Prop) : W.Steps R active P P (Pure.pure ()) := fun _ hs hP =>
  .pure ⟨hs, hP, fun _ _ => rfl⟩

theorem bind (h : W.Steps R active P Q r) (h' : W.Steps R active Q S r') : W.Steps R active P S (do r; r') := by
  intro s hs hP
  refine .bind (h s hs hP) ?_
  rintro _ a ⟨ha, hQ, hframe⟩
  refine (h' a ha hQ).imp ?_
  rintro _ b ⟨hb, hS, hframe'⟩
  exact ⟨hb, hS, fun t ht => (hframe' t ht).trans (hframe t ht)⟩

/-- The threads that do not take part stay as they are. -/
theorem widen (h : W.Steps R active P Q r) (hle : ∀ t ∈ active, t ∈ active') (hP : ∀ t ∈ active, ∀ σ, P' t σ → P t σ)
    (hQ : ∀ t ∈ active, ∀ σ, Q t σ → Q' t σ) (hrest : ∀ t ∈ active', t ∉ active → ∀ σ, P' t σ → Q' t σ) :
    W.Steps R active' P' Q' r := by
  intro s hs hP'
  refine (h s hs fun t ht => hP t ht _ (hP' t (hle t ht))).imp ?_
  rintro _ a ⟨ha, hQa, hframe⟩
  refine ⟨ha, fun t ht => ?_, fun t ht => hframe t fun hmem => ht (hle t hmem)⟩
  by_cases hmem : t ∈ active
  · exact hQ t hmem _ (hQa t hmem)
  · rw [scope_eq, hframe t hmem, ← scope_eq]
    exact hrest t ht hmem _ (hP' t ht)

theorem imp (h : W.Steps R active P Q r) (hP : ∀ t ∈ active, ∀ σ, P' t σ → P t σ)
    (hQ : ∀ t ∈ active, ∀ σ, Q t σ → Q' t σ) : W.Steps R active P' Q' r :=
  h.widen (fun _ ht => ht) hP hQ fun _ ht hnot => absurd ht hnot

/-- Two sets of threads, one after the other. -/
theorem beside (h : W.Steps R active P Q r) (h' : W.Steps R active' P Q r')
    (hall : ∀ t, t ∈ all ↔ t ∈ active ∨ t ∈ active') (hdisjoint : ∀ t ∈ active, t ∉ active') :
    W.Steps R all P Q (do r; r') := by
  open Classical in
  refine bind (Q := fun t => if t ∈ active then Q t else P t) ?_ ?_
  · refine h.widen (fun t ht => (hall t).mpr (Or.inl ht)) (fun _ _ _ => id) (fun t ht σ hQ => ?_) fun t _ ht σ hP => ?_
    · rwa [if_pos ht]
    · rwa [if_neg ht]
  · refine h'.widen (fun t ht => (hall t).mpr (Or.inr ht)) (fun t ht σ hP => ?_) (fun _ _ _ => id)
      fun t ht ht' σ hQ => ?_
    · rwa [if_neg fun hmem => hdisjoint t hmem ht] at hP
    · rwa [if_pos (((hall t).mp ht).resolve_right ht')] at hQ

theorem turns (turn : Nat → Run Unit) : ∀ {active : List Nat},
    (∀ t ∈ active, ∀ s, W.Fine R s → P t (s.scope W.ctx t) → Run.Ends (turn t) (fun _ s' => W.Left R t (Q t) s s') s) →
      active.Nodup → W.Steps R active P Q (active.forM turn)
  | [], _, _ => (pure P).imp (by simp) (by simp)
  | t :: ts, h, hnd => by
    obtain ⟨hnt, hnd⟩ := List.nodup_cons.mp hnd
    have first : W.Steps R [t] P Q (turn t) := by
      intro s hs hP
      refine (h t List.mem_cons_self s hs (hP t List.mem_cons_self)).imp fun _ s' hs' => ⟨hs'.fine, ?_, ?_⟩
      · intro t' ht'
        rw [List.mem_singleton.mp ht']
        exact hs'.claim
      · exact fun t' ht' => hs'.only.others t' fun e => ht' (e ▸ List.mem_cons_self)
    rw [Run.forM_cons]
    exact first.beside (turns turn (fun t' ht' => h t' (List.mem_cons_of_mem t ht')) hnd) (by simp) (by simpa using hnt)

theorem countUp {body : Nat → Run Unit} {I : Nat → Nat → Scope → Prop} : ∀ {count first : Nat},
    (∀ k, W.Steps R active (I k) (I (k + 1)) (body k)) →
      W.Steps R active (I first) (I (first + count)) (Run.countUp body count first)
  | 0, first, _ => pure (I first)
  | n + 1, first, h => by
    have rest : W.Steps R active (I (first + 1)) (I (first + 1 + n)) _ := countUp h
    rw [show first + 1 + n = first + (n + 1) by omega] at rest
    exact (h first).bind rest

variable (Q)

theorem branch {c : Exp} {ifTrue ifFalse : Stmt} (hne : active ≠ []) (hnd : active.Nodup)
    (htrue : ∀ A : List Nat, A.Nodup → (∀ t ∈ A, t ∈ active) →
      W.Steps R A (fun t => W.Heeds R t ifTrue (Q t)) Q (Run.exec W.ctx ifTrue A))
    (hfalse : ∀ A : List Nat, A.Nodup → (∀ t ∈ A, t ∈ active) →
      W.Steps R A (fun t => W.Heeds R t ifFalse (Q t)) Q (Run.exec W.ctx ifFalse A)) :
    W.Steps R active (fun t => W.Heeds R t (.branch c ifTrue ifFalse) (Q t)) Q
      (Run.exec W.ctx (.branch c ifTrue ifFalse) active) := by
  intro s hs hP
  rw [Run.exec_branch hne]
  refine .bind (.ask (g := fun t s => c.evalBool (s.scope W.ctx t)) (P := fun answers s' => s' = s ∧ ∃ b : Nat → Bool,
    (∀ t ∈ active, c.evalBool (s.scope W.ctx t) = .ok (b t)) ∧ answers = active.map fun t => (t, b t))
    (fun t => Exp.peaceful_evalBool _ c) fun b hb => ⟨rfl, b, hb, rfl⟩) ?_
  rintro answers s' ⟨rfl, b, hb, rfl⟩
  -- A thread heeds its own side alone; the other side leaves its scope as it is.
  have both : W.Steps R active
      (fun t => if b t then W.Heeds R t ifTrue (Q t) else W.Heeds R t ifFalse (Q t)) Q (do
        Run.exec W.ctx ifTrue (Run.those (active.map fun t => (t, b t)) id)
        Run.exec W.ctx ifFalse (Run.those (active.map fun t => (t, b t)) not)) := by
    refine beside ((htrue _ (Run.nodup_those b id hnd) ?_).imp ?_ fun _ _ _ h => h)
      ((hfalse _ (Run.nodup_those b not hnd) ?_).imp ?_ fun _ _ _ h => h) ?_ ?_
    · exact fun t ht => (Run.mem_those.mp ht).1
    · intro t ht σ h
      rwa [if_pos (show b t = true from (Run.mem_those.mp ht).2)] at h
    · exact fun t ht => (Run.mem_those.mp ht).1
    · intro t ht σ h
      rwa [if_neg (by simpa using (Run.mem_those.mp ht).2)] at h
    · intro t
      rw [Run.mem_those, Run.mem_those]
      cases b t <;> simp
    · intro t ht ht'
      rw [Run.mem_those] at ht ht'
      simp [show b t = true from ht.2] at ht'
  refine both s' hs fun t ht => ?_
  have hheeds := hP t ht
  simp only [Heeds] at hheeds
  cases hbt : b t with
  | true => simpa [hbt] using hheeds.1 (hbt ▸ hb t ht)
  | false => simpa [hbt] using hheeds.2 (hbt ▸ hb t ht)

/-- One round of a loop, for the threads that have not reached their bounds. -/
theorem round {iter : Ident} {body : Stmt} {n : Nat → Int64} {I : Nat → Nat → Scope → Prop} (k : Nat)
    (hnd : active.Nodup) (hsize : ∀ t ∈ active, t < W.size)
    (hstep : ∀ t ∈ active, ∀ k σ, k < (n t).toInt.toNat → I t k σ →
      W.Heeds R t body (I t (k + 1)) (σ.set iter (.i64 (Int64.ofNat k))))
    (hbody : ∀ (A : List Nat) (Q : Nat → Scope → Prop), A.Nodup → (∀ t ∈ A, t ∈ active) →
      W.Steps R A (fun t => W.Heeds R t body (Q t)) Q (Run.exec W.ctx body A)) :
    W.Steps R active (fun t => I t (min k (n t).toInt.toNat)) (fun t => I t (min (k + 1) (n t).toInt.toNat))
      (Run.loopStep W.ctx iter body (active.map fun t => (t, n t)) k) := by
  have inner : ∀ t, t ∈ Run.those (active.map fun t => (t, n t)) (fun b => k < b.toInt) ↔
      t ∈ active ∧ k < (n t).toInt.toNat := by
    intro t
    rw [Run.mem_those, decide_eq_true_iff, Int.lt_toNat]
  have hnd' := Run.nodup_those (a := n) (p := fun b => k < b.toInt) hnd
  have sets : W.Steps R (Run.those (active.map fun t => (t, n t)) fun b => k < b.toInt) (fun t => I t k)
      (fun t => W.Heeds R t body (I t (k + 1))) _ :=
    turns (fun t => modify fun s => s.bind t iter (.i64 (Int64.ofNat k))) (fun t ht s hs hI => by
      obtain ⟨hmem, hlt⟩ := (inner t).mp ht
      exact .modify (hs.bind (hsize t hmem) iter _ (hstep t hmem k _ hlt hI))) hnd'
  refine (sets.bind (hbody _ (fun t => I t (k + 1)) hnd' fun t ht => ((inner t).mp ht).1)).widen ?_ ?_ ?_ ?_
  · exact fun t ht => ((inner t).mp ht).1
  · intro t ht σ h
    rwa [Nat.min_eq_left (Nat.le_of_lt ((inner t).mp ht).2)] at h
  · intro t ht σ h
    rwa [Nat.min_eq_left ((inner t).mp ht).2]
  · intro t ht hnot σ h
    have hle : (n t).toInt.toNat ≤ k := Nat.not_lt.mp fun hlt => hnot ((inner t).mpr ⟨ht, hlt⟩)
    rw [Nat.min_eq_right hle] at h
    rwa [Nat.min_eq_right (Nat.le_succ_of_le hle)]

theorem loop {iter : Ident} {bound : Exp} {body : Stmt} (hne : active ≠ []) (hnd : active.Nodup)
    (hsize : ∀ t ∈ active, t < W.size)
    (hbody : ∀ (A : List Nat) (Q : Nat → Scope → Prop), A.Nodup → (∀ t ∈ A, t ∈ active) →
      W.Steps R A (fun t => W.Heeds R t body (Q t)) Q (Run.exec W.ctx body A)) :
    W.Steps R active (fun t => W.Heeds R t (.loop iter bound body) (Q t)) Q
      (Run.exec W.ctx (.loop iter bound body) active) := by
  intro s hs hP
  rw [Run.exec_loop hne]
  refine .bind (.ask (g := fun t s => bound.evalInt (s.scope W.ctx t))
    (P := fun answers s' => s' = s ∧ ∃ n : Nat → Int64,
    (∀ t ∈ active, bound.evalInt (s.scope W.ctx t) = .ok (n t)) ∧ answers = active.map fun t => (t, n t))
    (fun t => Exp.peaceful_evalInt _ bound) fun n hn => ⟨rfl, n, hn, rfl⟩) ?_
  rintro answers s' ⟨rfl, n, hn, rfl⟩
  have hP : ∀ t ∈ active, ∃ I : Nat → Scope → Prop, I 0 (s'.scope W.ctx t) ∧
      (∀ k σ, k < (n t).toInt.toNat → I k σ → W.Heeds R t body (I (k + 1)) (σ.set iter (.i64 (Int64.ofNat k)))) ∧
      ∀ σ, I (n t).toInt.toNat σ → Q t σ := by
    intro t ht
    have hheeds := hP t ht
    simp only [Heeds] at hheeds
    exact hheeds _ (hn t ht)
  choose! I hI hstep hend using hP
  have rounds : W.Steps R active (fun t => I t (min 0 (n t).toInt.toNat))
      (fun t => I t (min (0 + Run.trips (active.map fun t => (t, n t))) (n t).toInt.toNat)) _ :=
    countUp (I := fun k t => I t (min k (n t).toInt.toNat)) fun k => round k hnd hsize hstep hbody
  have whole : W.Steps R active (fun t => I t 0) Q
      (Run.countUp (Run.loopStep W.ctx iter body (active.map fun t => (t, n t)))
        (Run.trips (active.map fun t => (t, n t))) 0) := by
    refine rounds.imp ?_ ?_
    · intro t _ σ h
      rwa [Nat.zero_min]
    · intro t ht σ h
      have : (n t).toInt.toNat ≤ Run.trips (active.map fun t => (t, n t)) :=
        Run.le_trips (p := (t, n t)) (List.mem_map.mpr ⟨t, ht, rfl⟩)
      rw [Nat.zero_add, Nat.min_eq_right this] at h
      exact hend t ht σ h
  -- Too many rounds are a fault, and a fault is no race.
  by_cases hlimit : W.ctx.loopLimit < Run.trips (active.map fun t => (t, n t))
  · simp only [if_pos hlimit]
    exact .bind (.throw (P := fun _ _ => False) (Fault.not_isRace (by simp))) fun _ _ h => h.elim
  · simp only [if_neg hlimit]
    exact whole s' hs hI

/-- A claim that no thread can make beforehand. -/
theorem of_false {r : Run Unit} (hne : active ≠ []) (h : ∀ t σ, ¬P t σ) : W.Steps R active P Q r := by
  intro s _ hP
  obtain ⟨t, ht⟩ := List.exists_mem_of_ne_nil active hne
  exact absurd (hP t ht) (h t _)

mutual

/-- Threads that heed their rights one by one heed them together. -/
theorem exec : ∀ (stmt : Stmt) (active : List Nat) (Q : Nat → Scope → Prop), active.Nodup →
    (∀ t ∈ active, t < W.size) →
      W.Steps R active (fun t => W.Heeds R t stmt (Q t)) Q (Run.exec W.ctx stmt active)
  | stmt, [], Q, _, _ => by
    rw [Run.exec_nil]
    exact (pure Q).imp (by simp) fun _ _ _ h => h
  | .seq stmts, t :: ts, Q, hnd, hsize => by
    rw [Run.exec_seq_eq]
    exact (execAll stmts (t :: ts) Q hnd hsize).imp (fun _ _ _ h => by rwa [Heeds] at h) fun _ _ _ h => h
  | .comment text body, t :: ts, Q, hnd, hsize => by
    rw [Run.exec_comment]
    exact (exec body (t :: ts) Q hnd hsize).imp (fun _ _ _ h => by rwa [Heeds] at h) fun _ _ _ h => h
  | .branch c ifTrue ifFalse, t :: ts, Q, hnd, hsize =>
    branch Q (List.cons_ne_nil t ts) hnd
      (fun A hA hle => exec ifTrue A Q hA fun t ht => hsize t (hle t ht))
      (fun A hA hle => exec ifFalse A Q hA fun t ht => hsize t (hle t ht))
  | .loop iter bound body, t :: ts, Q, hnd, hsize =>
    loop Q (List.cons_ne_nil t ts) hnd hsize fun A Q hA hle => exec body A Q hA fun t ht => hsize t (hle t ht)
  | .skip, t :: ts, Q, _, _ | .memFence _, t :: ts, Q, _, _ =>
    (pure Q).imp (fun _ _ _ h => by rwa [Heeds] at h) fun _ _ _ h => h
  | .declare name type _, t :: ts, Q, hnd, hsize =>
    turns (fun t => modify fun s => s.bind t name (.zero type)) (fun t ht s hs h => by
      rw [Heeds] at h
      exact .modify (hs.bind (hsize t ht) name _ h)) hnd
  | .query which dest, t :: ts, Q, hnd, hsize =>
    turns (fun t => modify fun s => s.bind t dest (.i64 (Run.answer W.ctx t which))) (fun t ht s hs h => by
      rw [Heeds] at h
      exact .modify (hs.bind (hsize t ht) dest _ h)) hnd
  | .declareArray name type length space, t :: ts, Q, hnd, hsize =>
    turns _ (fun t _ s hs h => declareArray_turn hs (by rwa [Heeds] at h)) hnd
  | .set name x, t :: ts, Q, hnd, hsize => turns _ (fun t ht s hs h => set_turn hs (hsize t ht) h) hnd
  | .read dest view index, t :: ts, Q, hnd, hsize =>
    turns (Run.readTurn W.ctx dest view index) (fun t ht s hs h => read_turn hs (hsize t ht) h) hnd
  | .write view index x, t :: ts, Q, hnd, hsize =>
    turns (Run.writeTurn W.ctx view index x) (fun t ht s hs h => write_turn hs (hsize t ht) h) hnd
  | .repeatWhile .., t :: ts, Q, _, _ | .barrier _, t :: ts, Q, _, _ | .update .., t :: ts, Q, _, _
  | .compareSwap .., t :: ts, Q, _, _ => of_false Q (List.cons_ne_nil t ts) fun _ _ h => by rwa [Heeds] at h

theorem execAll : ∀ (stmts : List Stmt) (active : List Nat) (Q : Nat → Scope → Prop), active.Nodup →
    (∀ t ∈ active, t < W.size) →
      W.Steps R active (fun t => W.HeedsAll R t stmts (Q t)) Q (Run.execAll W.ctx stmts active)
  | [], active, Q, _, _ => by
    rw [Run.execAll_nil]
    exact (pure Q).imp (fun _ _ _ h => by rwa [HeedsAll] at h) fun _ _ _ h => h
  | stmt :: stmts, active, Q, hnd, hsize => by
    have first := exec stmt active (fun t => W.HeedsAll R t stmts (Q t)) hnd hsize
    have rest := execAll stmts active Q hnd hsize
    rw [Run.execAll_cons]
    exact (first.bind rest).imp (fun _ _ _ h => by rwa [HeedsAll] at h) fun _ _ _ h => h

end

end Steps
end Watch
end SegKernel
