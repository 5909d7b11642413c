import SegKernel.Device.Group
import SegKernel.Device.Memory
import SegKernel.Table

/-! Lookup in a table after a change of it. -/

namespace SegKernel

namespace Table
variable {α : Type}

theorem getElem?_insert (t : Table α) (k a : Ident) (v : α) :
    (Std.ExtTreeMap.insert t k v)[a]? = if k = a then some v else t[a]? := by
  rw [Std.ExtTreeMap.getElem?_insert]
  simp only [Std.LawfulEqOrd.compare_eq_iff_eq]

@[simp] theorem getElem?_insert_self (t : Table α) (k : Ident) (v : α) :
    (Std.ExtTreeMap.insert t k v)[k]? = some v := by
  rw [getElem?_insert, if_pos rfl]

theorem getElem?_insert_of_ne (t : Table α) {k a : Ident} (v : α) (h : k ≠ a) :
    (Std.ExtTreeMap.insert t k v)[a]? = t[a]? := by
  rw [getElem?_insert, if_neg h]

/-- The second of two entries of one name counts. -/
theorem insert_insert (t : Table α) (k : Ident) (v w : α) :
    Std.ExtTreeMap.insert (Std.ExtTreeMap.insert t k v) k w = Std.ExtTreeMap.insert t k w := by
  refine Std.ExtTreeMap.ext_getElem? fun a => ?_
  rw [getElem?_insert, getElem?_insert, getElem?_insert]
  split <;> rfl

theorem getElem?_modify (t : Table α) (k a : Ident) (f : α → α) :
    (Std.ExtTreeMap.modify t k f)[a]? = if k = a then t[a]?.map f else t[a]? := by
  rw [Std.ExtTreeMap.getElem?_modify]
  simp only [Std.LawfulEqOrd.compare_eq_iff_eq]
  split
  · rename_i h
    rw [h]
  · rfl

theorem getElem?_modify_of_ne (t : Table α) {k a : Ident} (f : α → α) (h : k ≠ a) :
    (Std.ExtTreeMap.modify t k f)[a]? = t[a]? := by
  rw [getElem?_modify, if_neg h]

end Table

/-! ## Steps of threads

What a single step does to the threads of a group. A step of a thread changes no other thread, and what
it does to its own thread depends on that thread and on the memory that threads share. -/

/-- A result that can be computed. -/
theorem ok_of_toOption {ε α : Type} {x : Except ε α} {a : α} (h : x.toOption = some a) : x = .ok a := by
  cases x with
  | ok b => exact congrArg _ (Option.some.inj h)
  | error fault => cases h

/-- The variables that a thread sees: its own, and what the kernel takes from the host. -/
def Thread.scope (captured : Table Value) (th : Thread) : Scope := fun name =>
  match th.scalars[name]? with
  | some v => some v
  | none => captured[name]?

def Thread.bind (th : Thread) (name : Ident) (v : Value) : Thread :=
  { th with scalars := th.scalars.insert name v }

namespace Thread
variable (th : Thread) (captured : Table Value) (name : Ident) (v : Value)

theorem scope_bind (y : Ident) :
    (th.bind name v).scope captured y = if name = y then some v else th.scope captured y := by
  unfold scope bind
  dsimp only
  rw [Table.getElem?_insert]
  by_cases h : name = y
  · rw [if_pos h, if_pos h]
  · rw [if_neg h, if_neg h]

@[simp] theorem scope_bind_self : (th.bind name v).scope captured name = some v := by
  rw [scope_bind, if_pos rfl]

@[simp] theorem arrays_bind : (th.bind name v).arrays = th.arrays := rfl

theorem bind_bind (v w : Value) : (th.bind name v).bind name w = th.bind name w := by
  unfold bind
  rw [Table.insert_insert]

end Thread

namespace GroupState

def thread (s : GroupState) (t : Nat) : Thread := s.threads.getD t {}

theorem scope_eq (ctx : GroupContext) (s : GroupState) (t : Nat) :
    s.scope ctx t = (s.thread t).scope ctx.captured := rfl

theorem thread_modifyThread (s : GroupState) (t : Nat) (f : Thread → Thread) (t' : Nat) :
    (s.modifyThread t f).thread t' = if t' = t ∧ t < s.threads.size then f (s.thread t) else s.thread t' := by
  simp only [thread, modifyThread, Array.getD_eq_getD_getElem?, Array.getElem?_modify]
  by_cases h : t = t'
  · subst h
    by_cases ht : t < s.threads.size
    · simp [ht]
    · simp [ht]
  · simp [h, Ne.symm h]

@[simp] theorem thread_modifyThread_of_ne (s : GroupState) {t t' : Nat} (f : Thread → Thread) (h : t' ≠ t) :
    (s.modifyThread t f).thread t' = s.thread t' := by
  simp [thread_modifyThread, h]

theorem thread_modifyThread_self {s : GroupState} {t : Nat} (f : Thread → Thread) (h : t < s.threads.size) :
    (s.modifyThread t f).thread t = f (s.thread t) := by
  simp [thread_modifyThread, h]

@[simp] theorem modifyThread_id (s : GroupState) (t : Nat) : s.modifyThread t id = s := by
  have h : s.threads.modify t id = s.threads := by
    apply Array.ext_getElem?
    intro i
    rw [Array.getElem?_modify]
    split <;> simp
  rw [modifyThread, h]

theorem size_modifyThread (s : GroupState) (t : Nat) (f : Thread → Thread) :
    (s.modifyThread t f).threads.size = s.threads.size := by
  simp [modifyThread]

@[simp] theorem shared_modifyThread (s : GroupState) (t : Nat) (f : Thread → Thread) :
    (s.modifyThread t f).shared = s.shared := rfl

@[simp] theorem global_modifyThread (s : GroupState) (t : Nat) (f : Thread → Thread) :
    (s.modifyThread t f).global = s.global := rfl

/-- A group starts with threads that have nothing. -/
theorem thread_of_replicate {s : GroupState} {size : Nat} (h : s.threads = Array.replicate size {}) (t : Nat) :
    s.thread t = {} := by
  rw [thread, h, Array.getD_eq_getD_getElem?, Array.getElem?_replicate]
  split <;> rfl

end GroupState

namespace Run

/-! ### Taking computations apart -/

section
variable {α β σ : Type}

theorem bind_apply (x : EStateM Fault σ α) (f : α → EStateM Fault σ β) (s : σ) :
    (x >>= f) s = match x s with
      | .ok a s' => f a s'
      | .error e s' => .error e s' := by
  show EStateM.bind x f s = _
  unfold EStateM.bind
  cases x s <;> rfl

theorem bind_eq_ok {x : EStateM Fault σ α} {f : α → EStateM Fault σ β} {s s'' : σ} {b : β} :
    (x >>= f) s = .ok b s'' ↔ ∃ a s', x s = .ok a s' ∧ f a s' = .ok b s'' := by
  rw [bind_apply]
  cases h : x s with
  | ok a s' =>
    constructor
    · exact fun h' => ⟨a, s', rfl, h'⟩
    · rintro ⟨a', s₁, h₁, h₂⟩
      cases h₁
      exact h₂
  | error e s' => simp

theorem modify_eq_ok {f : σ → σ} {s s' : σ} {u : Unit} :
    (modify f : EStateM Fault σ Unit) s = .ok u s' ↔ s' = f s := by
  show EStateM.Result.ok () (f s) = _ ↔ _
  simp [eq_comm]

theorem pure_eq_ok {a b : α} {s s' : σ} : (pure a : EStateM Fault σ α) s = .ok b s' ↔ b = a ∧ s' = s := by
  show EStateM.Result.ok a s = _ ↔ _
  simp [eq_comm]

end

theorem evaluate_eq_ok {α : Type} {f : GroupState → Except Fault α} {s s' : GroupState} {a : α} :
    evaluate f s = .ok a s' ↔ f s = .ok a ∧ s' = s := by
  unfold evaluate
  cases h : f s with
  | ok b => simp [eq_comm]
  | error e => simp

theorem throw_ne_ok {α : Type} {e : Fault} {a : α} {s s' : GroupState} :
    ((throw e : Run α) s = .ok a s') ↔ False := by
  show EStateM.Result.error e s = _ ↔ _
  simp

end Run
end SegKernel
