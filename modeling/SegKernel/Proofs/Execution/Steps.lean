import SegKernel.Proofs.Execution.Threads

/-! The steps by which the threads of a group take their turns in a statement. Each step is turned
    around once: what held before it, and the state that it leaves. -/

namespace SegKernel

namespace GroupState

/-- From `a` to `b` no thread but `t` has changed. -/
structure OnlyThread (t : Nat) (a b : GroupState) : Prop where
  size : b.threads.size = a.threads.size
  others : ∀ t', t' ≠ t → b.thread t' = a.thread t'

theorem OnlyThread.trans {t : Nat} {a b c : GroupState} (h₁ : OnlyThread t a b) (h₂ : OnlyThread t b c) :
    OnlyThread t a c :=
  ⟨h₂.size.trans h₁.size, fun t' h => (h₂.others t' h).trans (h₁.others t' h)⟩

theorem onlyThread_modifyThread (t : Nat) (a : GroupState) (f : Thread → Thread) :
    OnlyThread t a (a.modifyThread t f) :=
  ⟨size_modifyThread a t f, fun _ h => thread_modifyThread_of_ne a f h⟩

theorem onlyThread_of_threads {t : Nat} {a b : GroupState} (h : b.threads = a.threads) : OnlyThread t a b :=
  ⟨by rw [h], fun _ _ => by rw [thread, thread, h]⟩

theorem bind_eq (s : GroupState) (t : Nat) (name : Ident) (v : Value) :
    s.bind t name v = s.modifyThread t (·.bind name v) := rfl

theorem onlyThread_bind (t : Nat) (a : GroupState) (name : Ident) (v : Value) :
    OnlyThread t a (a.bind t name v) := onlyThread_modifyThread t a _

theorem onlyThread_modifyBuffer (t : Nat) (a : GroupState) (view : View) (f : Buffer → Buffer) :
    OnlyThread t a (a.modifyBuffer t view f) := by
  unfold modifyBuffer
  split
  · exact onlyThread_of_threads rfl
  · exact onlyThread_of_threads rfl
  · exact onlyThread_modifyThread t a _

theorem buffer?_of_thread {s : GroupState} {t : Nat} {view : View} (h : view.space = .thread) :
    s.buffer? t view = (s.thread t).arrays[view.array]? := by
  unfold buffer?
  rw [h]
  rfl

theorem declareShared_threads (a : GroupState) (name : Ident) (type : ScalarType) (n : Nat) :
    (a.declareShared name type n).threads = a.threads := by
  unfold declareShared
  split <;> rfl

theorem thread_of_threads {a b : GroupState} (h : b.threads = a.threads) (t : Nat) : b.thread t = a.thread t := by
  rw [thread, thread, h]

theorem scope_of_threads {a b : GroupState} (ctx : GroupContext) (h : b.threads = a.threads) (t : Nat) :
    b.scope ctx t = a.scope ctx t := by
  rw [scope_eq, scope_eq, thread_of_threads h]

end GroupState

namespace Run
open GroupState
variable {ctx : GroupContext} {t : Nat} {s s' : GroupState} {u : Unit}

theorem value_eq_ok {x : Exp} {v : Value} :
    value ctx t x s = .ok v s' ↔ x.eval (s.scope ctx t) = .ok v ∧ s' = s := evaluate_eq_ok

theorem int_eq_ok {x : Exp} {i : Int64} :
    int ctx t x s = .ok i s' ↔ x.evalInt (s.scope ctx t) = .ok i ∧ s' = s := evaluate_eq_ok

theorem condition_eq_ok {x : Exp} {b : Bool} :
    condition ctx t x s = .ok b s' ↔ x.evalBool (s.scope ctx t) = .ok b ∧ s' = s := evaluate_eq_ok

theorem assignable_eq_ok {name : Ident} {v : Value} :
    assignable s t name v = .ok u ↔ ∃ old, (s.thread t).scalars[name]? = some old ∧ old.type = v.type := by
  unfold assignable
  rw [show s.threads.getD t {} = s.thread t from rfl]
  cases h : (s.thread t).scalars[name]? with
  | none => simp
  | some old =>
    by_cases ht : old.type = v.type
    · simp [ht]
    · simp [ht]

theorem assign_eq_ok {name : Ident} {v : Value} :
    assign t name v s = .ok u s' ↔
      (∃ old, (s.thread t).scalars[name]? = some old ∧ old.type = v.type) ∧ s' = s.bind t name v := by
  unfold assign
  simp only [bind_eq_ok, evaluate_eq_ok, assignable_eq_ok, modify_eq_ok]
  constructor
  · rintro ⟨-, s₁, ⟨h, rfl⟩, rfl⟩
    exact ⟨h, rfl⟩
  · rintro ⟨h, rfl⟩
    exact ⟨(), s, ⟨h, rfl⟩, rfl⟩

/-- The element that a thread reads through a view. -/
def element (s : GroupState) (t : Nat) (view : View) (index : Int64) : Except Fault Value :=
  match s.buffer? t view with
  | some b => b.load view index
  | none => .error (.unknownArray view.array)

theorem load_eq_ok {view : View} {index : Int64} {v : Value} :
    load t view index s = .ok v s' ↔ element s t view index = .ok v ∧ s' = s := evaluate_eq_ok

theorem store_eq_ok {view : View} {index : Int64} {v : Value} :
    store t view index v s = .ok u s' ↔
      ∃ i, storable s t view index v = .ok i ∧ s' = s.modifyBuffer t view (·.put i v.toBits) := by
  unfold store
  simp only [bind_eq_ok, evaluate_eq_ok, modify_eq_ok]
  constructor
  · rintro ⟨i, s₁, ⟨h, rfl⟩, rfl⟩
    exact ⟨i, h, rfl⟩
  · rintro ⟨i, h, rfl⟩
    exact ⟨i, s, ⟨h, rfl⟩, rfl⟩

theorem storable_eq_ok {view : View} {index : Int64} {v : Value} {p : Nat} :
    storable s t view index v = .ok p ↔
      v.type = view.type ∧ ∃ b, s.buffer? t view = some b ∧ b.position view index = .ok p := by
  unfold storable
  by_cases ht : v.type = view.type
  · rw [if_neg (by simpa using ht)]
    cases s.buffer? t view with
    | none => simp
    | some b => simp [ht]
  · simp [ht]

/-- Recording an access changes nothing but the record. -/
theorem track_eq_ok {view : View} {index : Int64} {isWrite : Bool}
    (h : track ctx t view index isWrite s = .ok u s') : ∃ races, s' = { s with races } := by
  unfold track at h
  split at h
  · dsimp only at h
    split at h
    · rename_i races _
      cases h
      exact ⟨races, rfl⟩
    · cases h
  · cases h
    exact ⟨s.races, rfl⟩

/-- The wave of a thread. -/
def waveOf (ctx : GroupContext) (t : Nat) : Int64 := Int64.ofNat t / ctx.wave

theorem track_eq_ok_of_own {view : View} {i : Int64} {isWrite : Bool} (h : view.space = .thread) :
    track ctx t view i isWrite s = .ok () s' ↔ s' = s := by
  unfold track
  rw [if_neg (by simp [h])]
  simp [eq_comm]

theorem track_eq_ok_of_checked {view : View} {i : Int64} {isWrite : Bool} (hchecked : ctx.checkRaces = true)
    (h : view.space ≠ .thread) : track ctx t view i isWrite s = .ok () s' ↔
      ∃ races, s.races.record ⟨view.space, view.array, i⟩ (waveOf ctx t) isWrite = .ok races ∧
        s' = { s with races } := by
  unfold track
  rw [if_pos ⟨hchecked, h⟩]
  dsimp only
  unfold waveOf
  cases s.races.record ⟨view.space, view.array, i⟩ (Int64.ofNat t / ctx.wave) isWrite with
  | ok races => simp [eq_comm]
  | error other => simp

/-! ### The step of each statement -/

/-- The turn of a thread in which it reads. -/
def readTurn (ctx : GroupContext) (dest : Ident) (view : View) (index : Exp) (t : Nat) : Run Unit := do
  let i ← int ctx t index
  let v ← load t view i
  track ctx t view i false
  assign t dest v

/-- The turn of a thread in which it writes. -/
def writeTurn (ctx : GroupContext) (view : View) (index x : Exp) (t : Nat) : Run Unit := do
  let i ← int ctx t index
  let v ← value ctx t x
  store t view i v
  track ctx t view i true

theorem set_eq_ok {name : Ident} {x : Exp} :
    (do let v ← value ctx t x; assign t name v : Run Unit) s = .ok u s' ↔
      ∃ v, x.eval (s.scope ctx t) = .ok v ∧
        (∃ old, (s.thread t).scalars[name]? = some old ∧ old.type = v.type) ∧ s' = s.bind t name v := by
  simp only [bind_eq_ok, value_eq_ok, assign_eq_ok]
  constructor
  · rintro ⟨v, s₁, ⟨hv, rfl⟩, h⟩
    exact ⟨v, hv, h⟩
  · rintro ⟨v, hv, h⟩
    exact ⟨v, s, ⟨hv, rfl⟩, h⟩

/-- A thread reads: what it reads, and that only its variable and the record change. -/
theorem read_ok {dest : Ident} {view : View} {index : Exp}
    (h : (do
      let i ← int ctx t index
      let v ← load t view i
      track ctx t view i false
      assign t dest v : Run Unit) s = .ok u s') :
    ∃ i v races, index.evalInt (s.scope ctx t) = .ok i ∧ element s t view i = .ok v ∧
      s' = { s with races }.bind t dest v := by
  simp only [bind_eq_ok, int_eq_ok, load_eq_ok] at h
  obtain ⟨i, s₁, ⟨hi, rfl⟩, v, s₂, ⟨hv, rfl⟩, u', s₃, htrack, hassign⟩ := h
  obtain ⟨races, rfl⟩ := track_eq_ok htrack
  exact ⟨i, v, races, hi, hv, (assign_eq_ok.mp hassign).2⟩

/-- A thread writes: where and what, and that only the element and the record change. -/
theorem write_ok {view : View} {index x : Exp}
    (h : (do
      let i ← int ctx t index
      let v ← value ctx t x
      store t view i v
      track ctx t view i true : Run Unit) s = .ok u s') :
    ∃ i v p races, index.evalInt (s.scope ctx t) = .ok i ∧ x.eval (s.scope ctx t) = .ok v ∧
      storable s t view i v = .ok p ∧ s' = { s.modifyBuffer t view (·.put p v.toBits) with races } := by
  simp only [bind_eq_ok, int_eq_ok, value_eq_ok, store_eq_ok] at h
  obtain ⟨i, s₁, ⟨hi, rfl⟩, v, s₂, ⟨hv, rfl⟩, u', s₃, ⟨p, hp, rfl⟩, htrack⟩ := h
  obtain ⟨races, rfl⟩ := track_eq_ok htrack
  exact ⟨i, v, p, races, hi, hv, hp, rfl⟩

theorem declareArray_ok {name : Ident} {type : ScalarType} {length : Exp} {space : Space}
    (h : declareArray ctx t name type length space s = .ok u s') :
    ∃ i n, length.evalInt (s.scope ctx t) = .ok i ∧ arrayLength name i = .ok n ∧
      ((space = .shared ∧ s' = s.declareShared name type n) ∨ (space = .thread ∧ s' = s.declareOwn t name type n)) := by
  simp only [declareArray, bind_eq_ok, int_eq_ok, evaluate_eq_ok] at h
  obtain ⟨i, s₁, ⟨hi, rfl⟩, n, s₂, ⟨hn, rfl⟩, h⟩ := h
  refine ⟨i, n, hi, hn, ?_⟩
  cases space with
  | shared => exact Or.inl ⟨rfl, modify_eq_ok.mp h⟩
  | thread => exact Or.inr ⟨rfl, modify_eq_ok.mp h⟩
  | global => exact absurd h (by simp [throw_ne_ok])

/-- An update changes one element, and gives one variable what the element held. -/
theorem update_ok {op : AtomicOp} {old : Ident} {view : View} {index x : Exp}
    (h : update ctx t op old view index x s = .ok u s') :
    ∃ p v current, s' = ((s.modifyBuffer t view (·.put p v)).bind t old current).countAtomic := by
  simp only [update, bind_eq_ok, int_eq_ok, value_eq_ok, load_eq_ok, evaluate_eq_ok, store_eq_ok, assign_eq_ok,
    modify_eq_ok] at h
  obtain ⟨i, s₁, ⟨-, rfl⟩, v, s₂, ⟨-, rfl⟩, current, s₃, ⟨-, rfl⟩, new, s₄, ⟨-, rfl⟩, -, s₅, ⟨p, -, rfl⟩, -, s₆,
    ⟨-, rfl⟩, rfl⟩ := h
  exact ⟨p, new.toBits, current, rfl⟩

/-- A compare-and-swap changes at most one element, and gives one variable what the element held. -/
theorem compareSwap_ok {old : Ident} {view : View} {index expected desired : Exp}
    (h : compareSwap ctx t old view index expected desired s = .ok u s') :
    ∃ current, s' = (s.bind t old current).countAtomic ∨
      ∃ p v, s' = ((s.modifyBuffer t view (·.put p v)).bind t old current).countAtomic := by
  simp only [compareSwap, bind_eq_ok, int_eq_ok, value_eq_ok] at h
  obtain ⟨i, s₁, ⟨-, rfl⟩, e, s₂, ⟨-, rfl⟩, d, s₃, ⟨-, rfl⟩, h⟩ := h
  split at h
  · simp [bind_eq_ok, throw_ne_ok] at h
  · simp only [bind_eq_ok, load_eq_ok] at h
    obtain ⟨current, s₄, ⟨-, rfl⟩, h⟩ := h
    refine ⟨current, ?_⟩
    split at h
    · simp only [bind_eq_ok, store_eq_ok, assign_eq_ok, modify_eq_ok] at h
      obtain ⟨-, s₆, ⟨p, -, rfl⟩, -, s₇, ⟨-, rfl⟩, rfl⟩ := h
      exact Or.inr ⟨p, d.toBits, rfl⟩
    · simp only [bind_eq_ok, assign_eq_ok, modify_eq_ok] at h
      obtain ⟨-, s₆, ⟨-, rfl⟩, rfl⟩ := h
      exact Or.inl rfl

/-! ### All active threads -/

theorem forM_cons {α : Type} (a : α) (as : List α) (f : α → Run Unit) :
    (a :: as).forM f = (do f a; as.forM f) := rfl

/-- What holds of the turn of each thread holds from the first turn to the last, for steps that keep
    `I` and touch only the thread whose turn it is. -/
theorem forM_local {f : Nat → Run Unit} {I : GroupState → Prop} {Q : Nat → Thread → Thread → Prop} :
    ∀ {active : List Nat} {s s' : GroupState},
      (∀ t ∈ active, ∀ a b, I a → f t a = .ok () b → I b ∧ OnlyThread t a b ∧ Q t (a.thread t) (b.thread t)) →
      active.Nodup → I s → active.forM f s = .ok () s' →
      I s' ∧ s'.threads.size = s.threads.size ∧ (∀ t ∈ active, Q t (s.thread t) (s'.thread t)) ∧
        ∀ t ∉ active, s'.thread t = s.thread t
  | [], s, s', _, _, hI, h => by
    obtain ⟨-, rfl⟩ := pure_eq_ok.mp h
    exact ⟨hI, rfl, by simp, fun _ _ => rfl⟩
  | t :: ts, s, s', step, hnd, hI, h => by
    obtain ⟨hnt, hnd⟩ := List.nodup_cons.mp hnd
    obtain ⟨_, b, hb, hrest⟩ := bind_eq_ok.mp (forM_cons t ts f ▸ h)
    obtain ⟨hIb, honly, hQ⟩ := step t List.mem_cons_self s b hI hb
    obtain ⟨hI', hsize, hall, hframe⟩ :=
      forM_local (fun t' ht' => step t' (List.mem_cons_of_mem t ht')) hnd hIb hrest
    refine ⟨hI', hsize.trans honly.size, ?_, ?_⟩
    · intro t' ht'
      rcases List.mem_cons.mp ht' with rfl | ht'
      · rw [hframe t' hnt]
        exact hQ
      · rw [← honly.others t' (fun h => hnt (h ▸ ht'))]
        exact hall t' ht'
    · intro t' ht'
      rw [List.mem_cons, not_or] at ht'
      rw [hframe t' ht'.2, honly.others t' ht'.1]

end Run
end SegKernel
