import SegKernel.Proofs.Execution.Phases
import SegKernel.Proofs.Races.Checking

/-! What the code of a whole group makes of the memory, and from which slots it reads. A part of the code
    takes the threads from one claim to another and the memory from one claim to another, and all that
    is read on the way lies in a set of slots. -/

namespace SegKernel

/-- An access that reads has a property. -/
def Event.Reads (K : Nat → Slot → Prop) : Event → Prop
  | .touch a => a.isWrite = false → K a.thread a.location.slot
  | .barrier => True

theorem Event.Reads.imp {K K' : Nat → Slot → Prop} {e : Event} (h : e.Reads K) (hK : ∀ t p, K t p → K' t p) :
    e.Reads K' := by
  cases e with
  | touch a => exact fun hread => hK _ _ (h hread)
  | barrier => trivial

/-! ### What threads in lockstep read -/

namespace Crowd
variable {C : Crowd} {active A B : List Nat} {P P' Q Q' : Nat → Claim} {r : Run Unit}
  {writes : GroupState → List (Nat × Write)} {events events' : GroupState → List Event}

/-- The threads of the group read only slots that no other thread may write. -/
def Discreet (C : Crowd) (active : List Nat) (P : Nat → Claim) (events : GroupState → List Event) : Prop :=
  ∀ past s, C.Reached past s → (∀ t ∈ active, P t (s.thread t) (writesOf t past)) →
    ∀ e ∈ events s, e.Reads fun t p => t < C.size ∧ (C.solo t).Keeps p

namespace Discreet

theorem nil (C : Crowd) (active : List Nat) (P : Nat → Claim) : C.Discreet active P fun _ => [] :=
  fun _ _ _ _ _ he => by cases he

/-- Accesses that read nothing. -/
theorem of_writes (h : ∀ s, ∀ e ∈ events s, e.Reads fun _ _ => False) : C.Discreet active P events :=
  fun _ s _ _ e he => (h s e he).imp fun _ _ => False.elim

theorem of_step {stmt : Stmt} (hne : active ≠ []) (hstep : stmt.isStep = true)
    (h : ∀ s, ∀ e ∈ Run.touchesAt C.ctx stmt active s, e.Reads fun _ _ => False) :
    C.Discreet active P (Run.trace Run.touchesAt C.ctx stmt active) :=
  of_writes fun s e he => h s e (by rwa [Run.trace_of_isStep hne hstep] at he)

theorem imp (h : C.Discreet active P events) (hP : ∀ t ∈ active, ∀ th ws, P' t th ws → P t th ws) :
    C.Discreet active P' events := fun past s hs hP' => h past s hs fun t ht => hP t ht _ _ (hP' t ht)

/-- What comes next is read by the same threads or by other ones. -/
theorem beside (h : C.Discreet A P events) (hmeets : C.Meets A P Q r writes) (h' : C.Discreet B P' events')
    (hA : ∀ t ∈ A, t ∈ active) (hB : ∀ t ∈ B, t ∈ active) (hnext : ∀ t ∈ B, t ∈ A → ∀ th ws, Q t th ws → P' t th ws)
    (hrest : ∀ t ∈ B, t ∉ A → ∀ th ws, P t th ws → P' t th ws) :
    C.Discreet active P fun s => events s ++ Run.after r s fun _ s' => events' s' := by
  intro past s hs hP e he
  have hPA := fun t ht => hP t (hA t ht)
  obtain ⟨s', hr, hs', hwrites, hQ, hframe⟩ := hmeets past s hs hPA
  dsimp only at he
  rw [Run.after_ok hr] at he
  rcases List.mem_append.mp he with he | he
  · exact h past s hs hPA e he
  · refine h' _ s' hs' (fun t ht => ?_) e he
    by_cases hmem : t ∈ A
    · exact hnext t ht hmem _ _ (hQ t hmem)
    · have none : writesOf t (writes s) = [] := writesOf_eq_nil fun e he h => hmem (h ▸ hwrites e he)
      rw [writesOf_append, none, List.append_nil, hframe.others t hmem]
      exact hrest t ht hmem _ _ (hP t (hB t ht))

theorem bind (h : C.Discreet active P events) (hmeets : C.Meets active P Q r writes)
    (h' : C.Discreet active Q events') :
    C.Discreet active P fun s => events s ++ Run.after r s fun _ s' => events' s' :=
  h.beside hmeets h' (fun _ => id) (fun _ => id) (fun _ _ _ _ _ => id) fun _ ht hnot => absurd ht hnot

theorem turns {turn : Nat → Run Unit} {events : Nat → GroupState → List Event}
    {writes : Nat → GroupState → List (Nat × Write)} :
    ∀ {active : List Nat}, (∀ t ∈ active, C.Meets [t] (fun _ => P t) (fun _ => Q t) (turn t) (writes t)) →
      (∀ t ∈ active, C.Discreet [t] (fun _ => P t) (events t)) → active.Nodup →
        C.Discreet active P (Run.traceTurns turn events active)
  | [], _, _, _ => nil C [] P
  | t :: ts, hmeets, h, hnd => by
    obtain ⟨hnt, hnd⟩ := List.nodup_cons.mp hnd
    have single : ∀ t' ∈ [t], t' = t := fun _ => List.mem_singleton.mp
    have first : C.Discreet [t] P (events t) := (h t List.mem_cons_self).imp
      fun t' ht' _ _ hP => by rwa [single t' ht'] at hP
    have step : C.Meets [t] P Q (turn t) (writes t) := (hmeets t List.mem_cons_self).imp
      (fun t' ht' _ _ hP => by rwa [single t' ht'] at hP) fun t' ht' _ _ hQ => by rwa [single t' ht']
    refine first.beside step (turns (fun t' ht' => hmeets t' (List.mem_cons_of_mem t ht'))
      (fun t' ht' => h t' (List.mem_cons_of_mem t ht')) hnd) (fun t' ht' => by simp [single t' ht'])
      (fun t' => List.mem_cons_of_mem t) (fun t' ht' hmem => ?_) fun _ _ _ _ _ => id
    rw [single t' hmem] at ht'
    exact absurd ht' hnt

theorem countUp {body : Nat → Run Unit} {events : Nat → GroupState → List Event}
    {writes : Nat → GroupState → List (Nat × Write)} {I : Nat → Nat → Claim}
    (hmeets : ∀ k, C.Meets active (I k) (I (k + 1)) (body k) (writes k)) (h : ∀ k, C.Discreet active (I k) (events k)) :
    ∀ count first, C.Discreet active (I first) (Run.traceUp body events count first)
  | 0, first => nil C active (I first)
  | n + 1, first => (h first).bind (hmeets first) (countUp hmeets h n (first + 1))

/-- A thread reads what it sees. -/
theorem read {t : Nat} (ht : t < C.size) (dest : Ident) (view : View) (index : Exp) (Q : Claim) :
    C.Discreet [t] (fun _ => (C.solo t).Ensures (.read dest view index) Q) (Run.readTouch C.ctx view index t) := by
  intro past s _ hP e he
  have hP := hP t (List.mem_singleton_self t)
  dsimp only at hP
  rw [Solo.Ensures] at hP
  obtain ⟨i, v, hi, hv, -⟩ := hP
  obtain ⟨i', s₁, hi', he⟩ := Run.mem_after.mp he
  obtain ⟨-, s₂, -, he⟩ := Run.mem_after.mp he
  obtain ⟨hint, rfl⟩ := Run.int_eq_ok.mp hi'
  obtain rfl : i = i' := Except.ok.inj (hi.symm.trans hint)
  unfold Run.touchOf at he
  split at he
  · cases he
  · rename_i hspace
    rw [List.mem_singleton.mp he]
    intro _
    unfold Solo.Loads at hv
    split at hv
    · exact absurd ‹_› hspace
    · exact ⟨ht, hv.1⟩

theorem reads_of_writeTouch {ctx : GroupContext} {view : View} {index x : Exp} {t : Nat} {s : GroupState} :
    ∀ e ∈ Run.writeTouch ctx view index x t s, e.Reads fun _ _ => False := by
  intro e he
  obtain ⟨_, _, _, he⟩ := Run.mem_after.mp he
  obtain ⟨_, _, _, he⟩ := Run.mem_after.mp he
  obtain ⟨_, _, _, he⟩ := Run.mem_after.mp he
  unfold Run.touchOf at he
  split at he
  · cases he
  · rw [List.mem_singleton.mp he]
    exact nofun

theorem branch {c : Exp} {ifTrue ifFalse : Stmt} (Q : Nat → Claim) (hne : active ≠ []) (hnd : active.Nodup)
    (hsize : ∀ t ∈ active, t < C.size)
    (htrue : ∀ A : List Nat, A.Nodup → (∀ t ∈ A, t < C.size) →
      C.Discreet A (fun t => (C.solo t).Ensures ifTrue (Q t)) (Run.trace Run.touchesAt C.ctx ifTrue A))
    (hfalse : ∀ A : List Nat, A.Nodup → (∀ t ∈ A, t < C.size) →
      C.Discreet A (fun t => (C.solo t).Ensures ifFalse (Q t)) (Run.trace Run.touchesAt C.ctx ifFalse A)) :
    C.Discreet active (fun t => (C.solo t).Ensures (.branch c ifTrue ifFalse) (Q t))
      (Run.trace Run.touchesAt C.ctx (.branch c ifTrue ifFalse) active) := by
  intro past s hs hP
  simp only [Solo.Ensures] at hP
  choose! b hb hQ using hP
  have hask := Run.ask_eq_of_forall (g := fun t s => c.evalBool (s.scope C.ctx t)) hb
  have mem : ∀ {p : Bool → Bool} {t : Nat}, t ∈ Run.those (active.map fun t => (t, b t)) p → t ∈ active ∧
    p (b t) = true :=
    Run.mem_those.mp
  have hndT := Run.nodup_those b id hnd
  have hsizeT : ∀ {p : Bool → Bool}, ∀ t ∈ Run.those (active.map fun t => (t, b t)) p, t < C.size :=
    fun t ht => hsize t (mem ht).1
  let P : Nat → Claim := fun t th ws =>
    if b t then (C.solo t).Ensures ifTrue (Q t) th ws else (C.solo t).Ensures ifFalse (Q t) th ws
  -- A thread has done what its own side asks for.
  have chosen : ∀ t ∈ Run.those (active.map fun t => (t, b t)) id, ∀ th ws, P t th ws →
    (C.solo t).Ensures ifTrue (Q t) th ws :=
    fun t ht th ws h => by rwa [show P t th ws = _ from if_pos (mem ht).2] at h
  have both : C.Discreet active P _ := ((htrue _ hndT hsizeT).imp chosen).beside
    ((Meets.exec ifTrue _ Q hndT hsizeT).imp chosen fun _ _ _ _ => id)
    (hfalse _ (Run.nodup_those b not hnd) hsizeT) (fun t ht => (mem ht).1) (fun t ht => (mem ht).1)
    (fun t ht ht' => by simpa [show b t = true from (mem ht').2] using (mem ht).2)
    fun t ht _ th ws h => by rwa [show P t th ws = _ from if_neg (by simpa using (mem ht).2)] at h
  rw [Run.trace_branch hne]
  unfold Run.condition
  dsimp only
  rw [Run.after_ok hask]
  exact both past s hs hQ

theorem loop {iter : Ident} {bound : Exp} {body : Stmt} (Q : Nat → Claim) (hne : active ≠ []) (hnd : active.Nodup)
    (hsize : ∀ t ∈ active, t < C.size)
    (hbody : ∀ (A : List Nat) (Q : Nat → Claim), A.Nodup → (∀ t ∈ A, t < C.size) →
      C.Discreet A (fun t => (C.solo t).Ensures body (Q t)) (Run.trace Run.touchesAt C.ctx body A)) :
    C.Discreet active (fun t => (C.solo t).Ensures (.loop iter bound body) (Q t))
      (Run.trace Run.touchesAt C.ctx (.loop iter bound body) active) := by
  intro past s hs hP
  simp only [Solo.Ensures] at hP
  choose! n hn hlimit I hI hstep hend using hP
  have hask := Run.ask_eq_of_forall (g := fun t s => bound.evalInt (s.scope C.ctx t)) hn
  have hle : ¬C.ctx.loopLimit < Run.trips (active.map fun t => (t, n t)) := by
    refine Nat.not_lt.mpr (Run.trips_le fun p hp => ?_)
    obtain ⟨t, ht, rfl⟩ := List.mem_map.mp hp
    exact hlimit t ht
  have hround : ∀ k, C.Meets active (fun t => I t (min k (n t).toInt.toNat))
    (fun t => I t (min (k + 1) (n t).toInt.toNat)) _ _ :=
    fun k => Meets.round k hnd hsize hstep fun A Q hA hmem => Meets.exec body A Q hA fun t ht => hsize t (hmem t ht)
  rw [Run.trace_loop hne]
  unfold Run.int
  dsimp only
  rw [Run.after_ok hask]
  rw [if_neg hle]
  refine countUp hround (fun k => ?_) _ 0 past s hs fun t ht => by simpa using hI t ht
  -- The threads that have not reached their bounds bind the variable of the loop, and run the body.
  have inner : ∀ t, t ∈ Run.those (active.map fun t => (t, n t)) (fun b => k < b.toInt) ↔
      t ∈ active ∧ k < (n t).toInt.toNat := by
    intro t
    rw [Run.mem_those, decide_eq_true_iff, Int.lt_toNat]
  have hnd' := Run.nodup_those (a := n) (p := fun b => k < b.toInt) hnd
  have sets := Meets.turns_silent (P := fun t th ws => (C.solo t).Ensures body (I t (k + 1))
      (th.bind iter (.i64 (Int64.ofNat k))) ws) (Q := fun t => (C.solo t).Ensures body (I t (k + 1)))
    (fun t ht => Meets.declare (hsize t ((inner t).mp ht).1) iter (.i64 (Int64.ofNat k)) _) hnd'
  have rest := hbody _ (fun t => I t (k + 1)) hnd' fun t ht => hsize t ((inner t).mp ht).1
  intro past s hs hP
  refine ((nil C _ _).bind sets rest) past s hs fun t ht => ?_
  obtain ⟨hmem, hlt⟩ := (inner t).mp ht
  have hI := hP t hmem
  dsimp only at hI
  rw [Nat.min_eq_left (Nat.le_of_lt hlt)] at hI
  exact hstep t hmem k _ _ hlt hI

mutual

/-- Threads read together what each of them reads on its own. -/
theorem exec : ∀ (stmt : Stmt) (active : List Nat) (Q : Nat → Claim), active.Nodup → (∀ t ∈ active, t < C.size) →
    C.Discreet active (fun t => (C.solo t).Ensures stmt (Q t)) (Run.trace Run.touchesAt C.ctx stmt active)
  | stmt, [], Q, _, _ => by
    rw [show Run.trace Run.touchesAt C.ctx stmt [] = fun _ => [] from funext fun s => Run.trace_nil stmt]
    exact nil C [] _
  | .seq stmts, t :: ts, Q, hnd, hsize => by
    rw [show Run.trace Run.touchesAt C.ctx (.seq stmts) (t :: ts) = _ from funext fun s => Run.trace_seq stmts]
    exact (execAll stmts (t :: ts) Q hnd hsize).imp fun _ _ _ _ h => by rwa [Solo.ensures_seq] at h
  | .comment text body, t :: ts, Q, hnd, hsize => by
    rw [show Run.trace Run.touchesAt C.ctx (.comment text body) (t :: ts) = _ from
      funext fun s => Run.trace_comment text body]
    exact (exec body (t :: ts) Q hnd hsize).imp fun _ _ _ _ h => by rwa [Solo.ensures_comment] at h
  | .branch c ifTrue ifFalse, t :: ts, Q, hnd, hsize =>
    branch Q (List.cons_ne_nil t ts) hnd hsize (fun A => exec ifTrue A Q) fun A => exec ifFalse A Q
  | .loop iter bound body, t :: ts, Q, hnd, hsize =>
    loop Q (List.cons_ne_nil t ts) hnd hsize fun A Q => exec body A Q
  | .read dest view index, t :: ts, Q, hnd, hsize =>
    turns (fun t ht => Meets.read (hsize t ht) dest view index (Q t))
      (fun t ht => read (hsize t ht) dest view index (Q t)) hnd
  | .write view index x, t :: ts, Q, hnd, hsize =>
    turns (fun t ht => Meets.write (hsize t ht) view index x (Q t))
      (fun t ht => of_writes fun s => reads_of_writeTouch) hnd
  | .skip, t :: ts, Q, _, _ => of_writes fun s e he => by rw [Run.trace_skip] at he; cases he
  | .repeatWhile .., t :: ts, Q, _, _ => fun past s _ hP => by
    have := hP t List.mem_cons_self
    dsimp only at this
    rw [Solo.Ensures] at this
    exact this.elim
  | .barrier _, t :: ts, Q, _, _ => of_step (List.cons_ne_nil t ts) rfl fun s e he => by
    rw [List.mem_singleton.mp he]
    trivial
  | .memFence _, t :: ts, Q, _, _ | .declare .., t :: ts, Q, _, _ | .query .., t :: ts, Q, _, _
  | .declareArray .., t :: ts, Q, _, _ | .set .., t :: ts, Q, _, _ | .update .., t :: ts, Q, _, _
  | .compareSwap .., t :: ts, Q, _, _ => of_step (List.cons_ne_nil t ts) rfl fun s e he => by cases he

theorem execAll :
    ∀ (stmts : List Stmt) (active : List Nat) (Q : Nat → Claim), active.Nodup → (∀ t ∈ active, t < C.size) →
    C.Discreet active (fun t => (C.solo t).EnsuresAll stmts (Q t)) (Run.traceAll Run.touchesAt C.ctx stmts active)
  | [], active, Q, _, _ => by
    rw [show Run.traceAll Run.touchesAt C.ctx [] active = fun _ => [] from funext fun s => Run.traceAll_nil]
    exact nil C active _
  | stmt :: stmts, active, Q, hnd, hsize => by
    have first := exec stmt active (fun t => (C.solo t).EnsuresAll stmts (Q t)) hnd hsize
    have rest := execAll stmts active Q hnd hsize
    rw [show Run.traceAll Run.touchesAt C.ctx (stmt :: stmts) active = _ from
      funext fun s => Run.traceAll_cons stmt stmts]
    exact (first.bind (Meets.exec stmt active _ hnd hsize) rest).imp
      fun _ _ _ _ h => by rwa [Solo.ensuresAll_cons] at h

end

end Discreet
end Crowd

/-! ### Claims about the memory -/

namespace Team
variable {G : Team} {K : Slot → Prop} {T T' T'' T₀ : Nat → Thread → Prop} {M M' M'' M₀ : Store → Prop} {m : Store}
  {r r' : Run Unit} {writes writes' : GroupState → List (Nat × Write)} {events events' : GroupState → List Event}
  {stmt : Stmt} {stmts : List Stmt}

/-- The computation takes all threads and the memory from one claim to another, and reads only from some
    slots. -/
def Makes (G : Team) (K : Slot → Prop) (T : Nat → Thread → Prop) (M : Store → Prop) (r : Run Unit)
    (writes : GroupState → List (Nat × Write)) (events : GroupState → List Event) (T' : Nat → Thread → Prop)
    (M' : Store → Prop) : Prop :=
  ∀ m, M m → G.Takes T m r writes T' (fun ws => M' (m.puts ws)) ∧
    ∀ s, G.Has T m s → ∀ e ∈ events s, e.Reads fun _ => K

/-- The same for a statement that all threads run. -/
def Does (G : Team) (K : Slot → Prop) (T : Nat → Thread → Prop) (M : Store → Prop) (stmt : Stmt)
    (T' : Nat → Thread → Prop) (M' : Store → Prop) : Prop :=
  G.Makes K T M (Run.exec G.ctx stmt G.order) (Run.trace Run.writesAt G.ctx stmt G.order)
    (Run.trace Run.touchesAt G.ctx stmt G.order) T' M'

/-- The same for statements one after another. -/
def DoesAll (G : Team) (K : Slot → Prop) (T : Nat → Thread → Prop) (M : Store → Prop) (stmts : List Stmt)
    (T' : Nat → Thread → Prop) (M' : Store → Prop) : Prop :=
  G.Makes K T M (Run.execAll G.ctx stmts G.order) (Run.traceAll Run.writesAt G.ctx stmts G.order)
    (Run.traceAll Run.touchesAt G.ctx stmts G.order) T' M'

namespace Makes

theorem pure (hT : ∀ t < G.size, ∀ th, T t th → T' t th) (hM : ∀ m, M m → M' m) :
    G.Makes K T M (Pure.pure ()) (fun _ => []) (fun _ => []) T' M' :=
  fun m hm => ⟨Takes.pure hT (hM m hm), fun _ _ _ he => by cases he⟩

theorem bind (h : G.Makes K T M r writes events T' M') (h' : G.Makes K T' M' r' writes' events' T'' M'') :
    G.Makes K T M (do r; r') (fun s => writes s ++ Run.after r s fun _ s => writes' s)
      (fun s => events s ++ Run.after r s fun _ s => events' s) T'' M'' := by
  intro m hm
  obtain ⟨htakes, hreads⟩ := h m hm
  refine ⟨htakes.bind fun ws hws => ?_, fun s hs e he => ?_⟩
  · have := (h' _ hws).1
    simpa only [Store.puts_append] using this
  · rcases List.mem_append.mp he with he | he
    · exact hreads s hs e he
    · obtain ⟨s₁, h₁, hs₁, hM⟩ := htakes s hs
      rw [Run.after_ok h₁] at he
      exact (h' _ hM).2 s₁ hs₁ e he

/-- What the computation does counts only where it starts. -/
theorem congr (h : G.Makes K T M r writes events T' M')
    (hsame : ∀ m, M m → ∀ s, G.Has T m s → r' s = r s ∧ writes' s = writes s ∧ events' s = events s) :
    G.Makes K T M r' writes' events' T' M' := by
  refine fun m hm => ⟨fun s hs => ?_, fun s hs => ?_⟩
  · obtain ⟨hr, hw, -⟩ := hsame m hm s hs
    rw [hr, hw]
    exact (h m hm).1 s hs
  · rw [(hsame m hm s hs).2.2]
    exact (h m hm).2 s hs

theorem imp (h : G.Makes K T M r writes events T' M') (hT : ∀ t < G.size, ∀ th, T₀ t th → T t th) (hM : ∀ m, M₀ m → M m)
    (hT' : ∀ t < G.size, ∀ th, T' t th → T'' t th) (hM' : ∀ m, M' m → M'' m) :
    G.Makes K T₀ M₀ r writes events T'' M'' := fun m hm =>
  ⟨(h m (hM m hm)).1.imp hT hT' fun _ => hM' _,
    fun s hs => (h m (hM m hm)).2 s ⟨hs.size, fun t ht => hT t ht _ (hs.threads t ht), hs.store, hs.log⟩⟩

end Makes

/-- What is known of the memory can be told of each memory that may be there. -/
theorem Does.of_forall (h : ∀ m, M m → G.Does K T (· = m) stmt T' M') : G.Does K T M stmt T' M' :=
  fun m hm => h m hm m rfl

theorem Does.imp (h : G.Does K T M stmt T' M') (hT : ∀ t < G.size, ∀ th, T₀ t th → T t th) (hM : ∀ m, M₀ m → M m)
    (hT' : ∀ t < G.size, ∀ th, T' t th → T'' t th) (hM' : ∀ m, M' m → M'' m) : G.Does K T₀ M₀ stmt T'' M'' :=
  Makes.imp h hT hM hT' hM'

/-- Other slots may be read as well. -/
theorem Does.widen {K' : Slot → Prop} (h : G.Does K T M stmt T' M') (hK : ∀ p, K p → K' p) : G.Does K' T M stmt T' M' :=
  fun m hm => ⟨(h m hm).1, fun s hs e he => ((h m hm).2 s hs e he).imp fun _ => hK⟩

theorem DoesAll.imp (h : G.DoesAll K T M stmts T' M') (hT : ∀ t < G.size, ∀ th, T₀ t th → T t th)
    (hM : ∀ m, M₀ m → M m) (hT' : ∀ t < G.size, ∀ th, T' t th → T'' t th) (hM' : ∀ m, M' m → M'' m) :
    G.DoesAll K T₀ M₀ stmts T'' M'' :=
  Makes.imp h hT hM hT' hM'

/-! ### Sequences -/

theorem doesAll_nil (hT : ∀ t < G.size, ∀ th, T t th → T' t th) (hM : ∀ m, M m → M' m) : G.DoesAll K T M [] T' M' := by
  unfold DoesAll
  rw [Run.execAll_nil, show Run.traceAll Run.writesAt G.ctx [] G.order = fun _ => [] from
    funext fun s => Run.traceAll_nil, show Run.traceAll Run.touchesAt G.ctx [] G.order = fun _ => [] from
    funext fun s => Run.traceAll_nil]
  exact .pure hT hM

theorem DoesAll.cons (h : G.Does K T M stmt T' M') (h' : G.DoesAll K T' M' stmts T'' M'') :
    G.DoesAll K T M (stmt :: stmts) T'' M'' := by
  unfold DoesAll
  rw [Run.execAll_cons, show Run.traceAll Run.writesAt G.ctx (stmt :: stmts) G.order = _ from
    funext fun s => Run.traceAll_cons stmt stmts, show Run.traceAll Run.touchesAt G.ctx (stmt :: stmts) G.order = _ from
    funext fun s => Run.traceAll_cons stmt stmts]
  exact Makes.bind h h'

theorem DoesAll.append {rest : List Stmt} (h : G.DoesAll K T M stmts T' M') (h' : G.DoesAll K T' M' rest T'' M'') :
    G.DoesAll K T M (stmts ++ rest) T'' M'' := by
  unfold DoesAll
  rw [Run.execAll_append, show Run.traceAll Run.writesAt G.ctx (stmts ++ rest) G.order = _ from
    funext fun s => Run.traceAll_append stmts rest s,
    show Run.traceAll Run.touchesAt G.ctx (stmts ++ rest) G.order = _ from
    funext fun s => Run.traceAll_append stmts rest s]
  exact Makes.bind h h'

theorem Does.single (h : G.Does K T M stmt T' M') : G.DoesAll K T M [stmt] T' M' :=
  .cons h (doesAll_nil (fun _ _ _ => id) fun _ => id)

theorem does_block : G.Does K T M (.block stmts) T' M' ↔ G.DoesAll K T M stmts T' M' := by
  unfold DoesAll Does
  rw [Run.exec_block, show Run.trace Run.writesAt G.ctx (.block stmts) G.order = _ from
    funext fun s => Run.trace_block stmts, show Run.trace Run.touchesAt G.ctx (.block stmts) G.order = _ from
    funext fun s => Run.trace_block stmts]

theorem does_comment {text : String} : G.Does K T M (.comment text stmt) T' M' ↔ G.Does K T M stmt T' M' := by
  unfold Does
  rw [Run.exec_comment, show Run.trace Run.writesAt G.ctx (.comment text stmt) G.order = _ from
    funext fun s => Run.trace_comment text stmt,
      show Run.trace Run.touchesAt G.ctx (.comment text stmt) G.order = _ from
    funext fun s => Run.trace_comment text stmt]

theorem does_skip : G.Does K T M .skip T M := by
  unfold Does
  rw [Run.exec_skip, show Run.trace Run.writesAt G.ctx .skip G.order = fun _ => [] from
    funext fun s => Run.trace_skip, show Run.trace Run.touchesAt G.ctx .skip G.order = fun _ => [] from
    funext fun s => Run.trace_skip]
  exact .pure (fun _ _ _ => id) fun _ => id

theorem does_barrier {fence : Fence} : G.Does K T M (.barrier fence) T M := by
  refine fun m hm => ⟨leads_barrier (fun _ _ _ => id) hm, fun s _ e he => ?_⟩
  rw [Run.trace_of_isStep G.order_ne_nil rfl] at he
  rw [List.mem_singleton.mp he]
  trivial

/-- A branch that all threads take together. -/
theorem Does.branch {c : Exp} {b : Bool} {other : Stmt}
    (hc : ∀ t < G.size, ∀ th, T t th → c.evalBool (th.scope G.ctx.captured) = .ok b)
    (h : G.Does K T M (if b then stmt else other) T' M') : G.Does K T M (.branch c stmt other) T' M' := by
  have hne := G.order_ne_nil
  refine Makes.congr h fun m _ s hs => ?_
  have hask := Run.ask_eq_of_forall (g := fun t s => c.evalBool (s.scope G.ctx t)) (a := fun _ => b) fun t ht =>
    hc t ((G.mem_order t).mp ht) _ (hs.threads t ((G.mem_order t).mp ht))
  have answers : Run.those (G.order.map fun t => (t, b)) id = (if b then G.order else []) ∧
      Run.those (G.order.map fun t => (t, b)) not = if b then [] else G.order := by
    cases b with
    | true => exact ⟨(Run.those_eq_of_forall (by simp)).trans (by simp [Function.comp_def]),
        Run.those_eq_nil_of_forall (by simp)⟩
    | false => exact ⟨Run.those_eq_nil_of_forall (by simp),
        (Run.those_eq_of_forall (by simp)).trans (by simp [Function.comp_def])⟩
  -- The other side is run by no thread, and leaves no trace.
  have traces : ∀ {β : Type} (events : Run.Events β), Run.trace events G.ctx (.branch c stmt other) G.order s =
      Run.trace events G.ctx (if b then stmt else other) G.order s := by
    intro β events
    rw [Run.trace_branch hne]
    unfold Run.condition
    dsimp only
    rw [Run.after_ok hask, answers.1, answers.2]
    cases b <;> simp [Run.after_nil]
  refine ⟨?_, traces _, traces _⟩
  rw [Run.exec_branch hne, Run.bind_apply]
  unfold Run.condition
  rw [hask]
  dsimp only
  rw [answers.1, answers.2]
  cases b <;> simp

/-- Code that is run by all threads or by none. -/
theorem Does.when {c : Exp} {b : Bool} (hc : ∀ t < G.size, ∀ th, T t th → Exp.IsBool (th.scope G.ctx.captured) c b)
    (htrue : b = true → G.Does K T M stmt T' M') (hfalse : b = false → G.Does K T M .skip T' M') :
    G.Does K T M (.when c stmt) T' M' := by
  have decided : ∀ {b' : Bool} {stmt' : Stmt}, c.bool? = some b' → (b' = b → G.Does K T M stmt' T' M') →
      G.Does K T M stmt' T' M' := by
    intro b' stmt' hb' h
    have known : ∀ {m s}, G.Has T m s → b' = b := fun hs =>
      Exp.IsBool.unique (Exp.eval_of_bool? hb') (hc 0 G.pos _ (hs.threads 0 G.pos))
    exact fun m hm => ⟨fun s hs => (h (known hs) m hm).1 s hs, fun s hs => (h (known hs) m hm).2 s hs⟩
  unfold Stmt.when
  split
  · exact decided ‹_› fun hb => htrue hb.symm
  · exact decided ‹_› fun hb => hfalse hb.symm
  · refine Does.branch (b := b) (fun t ht th hth => (hc t ht th hth).evalBool) ?_
    cases b with
    | true => exact htrue rfl
    | false => exact hfalse rfl

/-! ### Loops -/

/-- A loop that all threads leave together, after `n` rounds. -/
theorem Does.repeatWhile {c : Exp} {body : Stmt} {n : Nat} (T : Nat → Nat → Thread → Prop) (M : Nat → Store → Prop)
    (hlimit : n ≤ G.ctx.loopLimit)
    (htest : ∀ j ≤ n, ∀ t < G.size, ∀ th, T j t th → c.evalBool (th.scope G.ctx.captured) = .ok (decide (j < n)))
    (hbody : ∀ j < n, G.Does K (T j) (M j) body (T (j + 1)) (M (j + 1))) :
    G.Does K (T 0) (M 0) (.repeatWhile c body) (T n) (M n) := by
  have stop : ∀ {m s}, G.Has (T n) m s → Run.loopTest G.ctx c G.order s = .ok [] s := fun hs => by
    simpa using those_of_uniform fun t ht => htest n (Nat.le_refl n) t ht _ (hs.threads t ht)
  have go : ∀ {j m s}, j < n → G.Has (T j) m s → Run.loopTest G.ctx c G.order s = .ok G.order s := fun hj hs => by
    simpa [hj] using those_of_uniform fun t ht => htest _ (Nat.le_of_lt hj) t ht _ (hs.threads t ht)
  have hlive : ¬G.order.isEmpty = true := by simpa using G.order_ne_nil
  -- On the rounds that are left, as for the run itself: what a round reads is known when it starts.
  have reads : ∀ (k j limit : Nat), j + k = n → ∀ m, M j m → ∀ s, G.Has (T j) m s →
      ∀ e ∈ Run.traceWhile (Run.loopTest G.ctx c) (fun live => Run.exec G.ctx body live)
        (fun live s => Run.trace Run.touchesAt G.ctx body live s) limit G.order s, e.Reads fun _ => K := by
    intro k
    induction k with
    | zero =>
      intro j limit hj m _ s hs e he
      obtain rfl : j = n := hj
      cases limit with
      | zero => cases he
      | succ limit =>
        rw [Run.traceWhile, Run.after_ok (stop hs)] at he
        cases he
    | succ k ih =>
      intro j limit hj m hm s hs e he
      cases limit with
      | zero => cases he
      | succ limit =>
        rw [Run.traceWhile, Run.after_ok (go (by omega) hs), if_neg hlive] at he
        obtain ⟨htakes, hreads⟩ := hbody j (by omega) m hm
        obtain ⟨s₁, h₁, hs₁, hM⟩ := htakes s hs
        rcases List.mem_append.mp he with he | he
        · exact hreads s hs e he
        · rw [Run.after_ok h₁] at he
          exact ih (j + 1) limit (by omega) _ hM s₁ hs₁ e he
  refine fun m hm => ⟨?_, fun s hs e he => ?_⟩
  · refine Leads.repeatWhile T (fun j ws => M j (m.puts ws)) hlimit htest (fun j hj ws hws => ?_) hm
    refine Takes.imp (hbody j hj _ hws).1 (fun _ _ _ => id) (fun _ _ _ => id) fun ws' h => ?_
    rwa [Store.puts_append]
  · rw [Run.trace_repeatWhile G.order_ne_nil] at he
    exact reads n 0 _ (Nat.zero_add n) m hm s hs e he

/-- A counted loop with the same bound for all threads. -/
theorem Does.loop {iter : Ident} {bound : Exp} {body : Stmt} {b : Int64} (T : Nat → Nat → Thread → Prop)
    (M : Nat → Store → Prop) (hlimit : b.toInt.toNat ≤ G.ctx.loopLimit)
    (hbound : ∀ t < G.size, ∀ th, T 0 t th → bound.evalInt (th.scope G.ctx.captured) = .ok b)
    (hbody : ∀ k < b.toInt.toNat,
      G.Does K (Given (T k) iter (.i64 (Int64.ofNat k))) (M k) body (T (k + 1)) (M (k + 1))) :
    G.Does K (T 0) (M 0) (.loop iter bound body) (T b.toInt.toNat) (M b.toInt.toNat) := by
  -- On the rounds that are left: what round `k` reads lies in `K`, since every thread enters it.
  have reads : ∀ (count k : Nat), k + count = b.toInt.toNat → ∀ m, M k m → ∀ s, G.Has (T k) m s →
      ∀ e ∈ Run.traceUp (Run.loopStep G.ctx iter body (G.order.map fun t => (t, b))) (fun k s =>
        let inner := Run.those (G.order.map fun t => (t, b)) fun b => k < b.toInt
        Run.after (inner.forM fun t => modify fun s => s.bind t iter (.i64 (Int64.ofNat k))) s fun _ s =>
          Run.trace Run.touchesAt G.ctx body inner s) count k s, e.Reads fun _ => K := by
    intro count
    induction count with
    | zero => exact fun _ _ _ _ _ _ _ he => by cases he
    | succ count ih =>
      intro k hk m hm s hs e he
      have hlt : (k : Int) < b.toInt := by omega
      have inner : Run.those (G.order.map fun t => (t, b)) (fun b => k < b.toInt) = G.order :=
        (Run.those_eq_of_forall (by simpa using fun _ _ => hlt)).trans (by simp [Function.comp_def])
      obtain ⟨htakes, hreads⟩ := hbody k (by omega) m hm
      rcases List.mem_append.mp he with he | he
      · dsimp only at he
        rw [inner] at he
        obtain ⟨s₁, h₁, hs₁, hwrites⟩ := Takes.give iter (.i64 (Int64.ofNat k)) s hs
        rw [Run.after_ok h₁] at he
        exact hreads s₁ hs₁ e he
      · obtain ⟨s₁, h₁, hs₁, hM⟩ := Takes.round hlt htakes s hs
        rw [Run.after_ok h₁] at he
        exact ih (k + 1) (by omega) _ hM s₁ hs₁ e he
  refine fun m hm => ⟨?_, fun s hs e he => ?_⟩
  · refine Leads.loop T (fun k ws => M k (m.puts ws)) hlimit hbound (fun k hk ws hws => ?_) hm
    refine Takes.imp (hbody k hk _ hws).1 (fun _ _ _ => id) (fun _ _ _ => id) fun ws' h => ?_
    rwa [Store.puts_append]
  · have hne := G.order_ne_nil
    have hask := Run.ask_eq_of_forall (g := fun t s => bound.evalInt (s.scope G.ctx t)) (a := fun _ => b) fun t ht =>
      hbound t ((G.mem_order t).mp ht) _ (hs.threads t ((G.mem_order t).mp ht))
    have trips : Run.trips (G.order.map fun t => (t, b)) = b.toInt.toNat :=
      Run.trips_eq_of_forall (by simpa using hne) (by simp)
    rw [Run.trace_loop hne] at he
    unfold Run.int at he
    dsimp only at he
    rw [Run.after_ok hask, trips, if_neg (Nat.not_lt.mpr hlimit)] at he
    exact reads _ 0 (Nat.zero_add _) m hm s hs e he

/-! ### Phases -/

/-- A thread in a phase. What must not be read belongs to a thread outside the group. -/
def among (G : Team) (K : Slot → Prop) (own : Nat → Slot → Prop) (m : Store) (t : Nat) : Solo :=
  ⟨G.ctx, m, fun t' p => own t' p ∨ t' = G.size ∧ ¬K p, t⟩

theorem keeps_among {own : Nat → Slot → Prop} {t : Nat} {p : Slot} (hp : K p) (h : ∀ t', t' ≠ t → ¬own t' p) :
    (G.among K own m t).Keeps p := by
  rintro t' ht' (hown | ⟨-, hnot⟩)
  · exact h t' ht' hown
  · exact hnot hp

theorem own_among {own : Nat → Slot → Prop} {t : Nat} {p : Slot} (h : own t p) : (G.among K own m t).own t p := Or.inl h

/-- The threads work side by side, without checks. What they have written together is what each one has
    written, in some order. -/
theorem Does.phase (hoff : G.ctx.checkRaces = false) (own : Nat → Slot → Prop) (Q : Nat → Claim)
    (hstart : ∀ t < G.size, ∀ th, T t th → (G.among K own m t).Ensures stmt (Q t) th [])
    (hT : ∀ t < G.size, ∀ th ws, Q t th ws → T' t th)
    (hM : ∀ es : List (Nat × Write), (∀ e ∈ es, e.1 < G.size ∧ own e.1 e.2.slot) →
      (∀ t < G.size, ∃ th, Q t th (writesOf t es)) → M' (m.puts (es.map (·.2)))) :
    G.Does K T (· = m) stmt T' M' := by
  have hon : G.ctx.checkRaces ≠ true := by simp [hoff]
  rintro m' rfl
  let own' : Nat → Slot → Prop := fun t' p => own t' p ∨ t' = G.size ∧ ¬K p
  refine ⟨Leads.phase own' (fun h => absurd h hon) Q hstart hT fun es hes => hM es fun e he => ⟨(hes e he).1, ?_⟩,
    fun s hs e he => ?_⟩
  · rcases (hes e he).2 with hown | ⟨hout, -⟩
    · exact hown
    · have := (hes e he).1
      omega
  · have oneWave : G.ctx.checkRaces = true → OneWave G.ctx G.size own' := fun h => absurd h hon
    have := Crowd.Discreet.exec (C := ⟨G.ctx, m', own', G.size, oneWave⟩) stmt G.order Q G.nodup
      (fun t ht => (G.mem_order t).mp ht) [] s ⟨hs.store, by simp, hs.size, fun h => absurd h hon⟩
      (fun t ht => hstart t ((G.mem_order t).mp ht) _ (hs.threads t ((G.mem_order t).mp ht))) e he
    refine this.imp fun t p ⟨ht, hkeeps⟩ => ?_
    by_contra hp
    exact hkeeps G.size (Nat.ne_of_gt ht) (Or.inr ⟨rfl, hp⟩)

/-- A phase in which nothing is written. -/
theorem Does.silent (hoff : G.ctx.checkRaces = false)
    (h : ∀ m, M m → ∀ t < G.size, ∀ th, T t th →
      (G.among K (fun _ _ => False) m t).Ensures stmt (fun th' ws => T' t th' ∧ ws = []) th []) :
    G.Does K T M stmt T' M := by
  refine Does.of_forall fun m hm => Does.phase hoff (fun _ _ => False) (fun t th' ws => T' t th' ∧ ws = []) (h m hm)
    (fun _ _ _ _ hQ => hQ.1) fun es hes _ => ?_
  have none : es = [] := List.eq_nil_iff_forall_not_mem.mpr fun e he => (hes e he).2
  subst none
  exact hm

/-! ### What threads know -/

/-- Each thread knows some variables, and has some arrays of its own. -/
def Knows (G : Team) (B : Nat → Scope) (own : Nat → Memory) : Nat → Thread → Prop := fun t th =>
  (B t).Le (th.scope G.ctx.captured) ∧ th.arrays = own t

variable {B B' : Nat → Scope} {own : Nat → Memory} {name : Ident} {x : Exp} {v : Nat → Value}

theorem Knows.forget (hle : ∀ t < G.size, (B' t).Le (B t)) :
    ∀ t < G.size, ∀ th, G.Knows B own t th → G.Knows B' own t th :=
  fun t ht _ hth => ⟨(hle t ht).trans hth.1, hth.2⟩

/-- A new variable of each thread gets its first value. -/
theorem Does.declareInit (hoff : G.ctx.checkRaces = false) {type : ScalarType} (hname : ∀ t < G.size, B t name = none)
    (hx : ∀ t < G.size, x.eval (B t) = .ok (v t)) (htype : ∀ t < G.size, (v t).type = type) :
    G.Does K (G.Knows B own) M (.declareInit name type x) (G.Knows (fun t => (B t).set name (v t)) own) M :=
  Does.silent hoff fun _ _ t ht _ hth => Solo.ensures_declareInit_of_known hth.1 (hname t ht) (hx t ht) (htype t ht)
    fun _ hth' ha => ⟨⟨hth', ha.trans hth.2⟩, rfl⟩

/-- A variable of each thread gets another value. -/
theorem Does.set (hoff : G.ctx.checkRaces = false) {old : Nat → Value} (hfree : G.ctx.captured[name]? = none)
    (hold : ∀ t < G.size, B t name = some (old t)) (hx : ∀ t < G.size, x.eval (B t) = .ok (v t))
    (htype : ∀ t < G.size, (old t).type = (v t).type) :
    G.Does K (G.Knows B own) M (.set name x) (G.Knows (fun t => (B t).set name (v t)) own) M :=
  Does.silent hoff fun _ _ t ht _ hth => Solo.ensures_set_of_known hth.1 hfree (hold t ht) (hx t ht) (htype t ht)
    fun _ hth' ha => ⟨⟨hth', ha.trans hth.2⟩, rfl⟩

end Team
end SegKernel
