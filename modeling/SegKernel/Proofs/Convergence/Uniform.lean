import SegKernel.Proofs.Convergence.Quiet
import SegKernel.Proofs.Evaluation.Variables

/-! Uniform code. A set of names is uniform while all threads of a group have the same under each of
    them. Code that decides its control flow by uniform names alone, and that gives a uniform name only
    what all threads agree on, keeps the group together: all its barriers are met by the whole group. -/

namespace SegKernel

/-- All variables of an expression belong to `U`. -/
def Exp.Over (U : Common) (x : Exp) : Prop := ∀ y ∈ x.occurrences, U y

/-- Code that the whole group runs together. -/
inductive Uniform (U : Common) : Stmt → Prop
  | quiet {stmt : Stmt} (h : Quiet U stmt) : Uniform U stmt
  | seq {stmts : List Stmt} (all : ∀ s ∈ stmts, Uniform U s) : Uniform U (.seq stmts)
  | comment {text : String} {body : Stmt} (h : Uniform U body) : Uniform U (.comment text body)
  | declare {name : Ident} {type : ScalarType} {volatile : Bool} : Uniform U (.declare name type volatile)
  | declareArray {name : Ident} {type : ScalarType} {length : Exp} {space : Space}
    (h : space = .thread → U.array name → length.Over U) : Uniform U (.declareArray name type length space)
  | set {name : Ident} {x : Exp} (h : U name → x.Over U) : Uniform U (.set name x)
  | read {dest : Ident} {view : View} {index : Exp}
    (h : U dest → index.Over U ∧ (view.space = .thread → U.array view.array)) : Uniform U (.read dest view index)
  | write {view : View} {index x : Exp} (h : view.space = .thread → U.array view.array → index.Over U ∧ x.Over U) :
    Uniform U (.write view index x)
  | branch {c : Exp} {ifTrue ifFalse : Stmt} (hc : c.Over U) (h₁ : Uniform U ifTrue) (h₂ : Uniform U ifFalse) :
    Uniform U (.branch c ifTrue ifFalse)
  | loop {iter : Ident} {bound : Exp} {body : Stmt} (hb : bound.Over U) (h : Uniform U body) :
    Uniform U (.loop iter bound body)
  | repeatWhile {c : Exp} {body : Stmt} (hc : c.Over U) (h : Uniform U body) : Uniform U (.repeatWhile c body)
  | query {which : Query} {dest : Ident} (h : U dest → which ≠ .globalId ∧ which ≠ .localId) :
    Uniform U (.query which dest)
  | barrier {fence : Fence} : Uniform U (.barrier fence)

/-! ### Threads that agree -/

/-- Two threads have the same under all names of `U`. -/
structure Thread.Agree (U : Common) (a b : Thread) : Prop where
  scalars : ∀ x, U x → a.scalars[x]? = b.scalars[x]?
  arrays : ∀ x, U.array x → a.arrays[x]? = b.arrays[x]?

namespace Thread.Agree
variable {U : Common} {a b : Thread}

theorem eval_eq (h : Agree U a b) {x : Exp} (hx : x.Over U) (captured : Table Value) :
    x.eval (a.scope captured) = x.eval (b.scope captured) :=
  Exp.eval_congr fun y hy => by rw [Thread.scope, Thread.scope, h.scalars y (hx y hy)]

theorem evalInt_eq (h : Agree U a b) {x : Exp} (hx : x.Over U) (captured : Table Value) :
    x.evalInt (a.scope captured) = x.evalInt (b.scope captured) := by
  rw [Exp.evalInt, Exp.evalInt, h.eval_eq hx]

theorem evalBool_eq (h : Agree U a b) {x : Exp} (hx : x.Over U) (captured : Table Value) :
    x.evalBool (a.scope captured) = x.evalBool (b.scope captured) := by
  rw [Exp.evalBool, Exp.evalBool, h.eval_eq hx]

theorem bind (h : Agree U a b) {name : Ident} {v w : Value} (hv : U name → v = w) :
    Agree U (a.bind name v) (b.bind name w) where
  scalars x hx := by
    show (Std.ExtTreeMap.insert a.scalars name v)[x]? = (Std.ExtTreeMap.insert b.scalars name w)[x]?
    simp only [Table.getElem?_insert, h.scalars x hx]
    split
    · rename_i e
      rw [hv (e ▸ hx)]
    · rfl
  arrays x hx := h.arrays x hx

theorem insertArray (h : Agree U a b) {name : Ident} {v w : Buffer} (hv : U.array name → v = w) :
    Agree U { a with arrays := a.arrays.insert name v } { b with arrays := b.arrays.insert name w } where
  scalars x hx := h.scalars x hx
  arrays x hx := by
    simp only [Table.getElem?_insert, h.arrays x hx]
    split
    · rename_i e
      rw [hv (e ▸ hx)]
    · rfl

theorem modifyArray (h : Agree U a b) {name : Ident} {f g : Buffer → Buffer} (hf : U.array name → f = g) :
    Agree U { a with arrays := a.arrays.modify name f } { b with arrays := b.arrays.modify name g } where
  scalars x hx := h.scalars x hx
  arrays x hx := by
    simp only [Table.getElem?_modify, h.arrays x hx]
    split
    · rename_i e
      rw [hf (e ▸ hx)]
    · rfl

end Thread.Agree

/-- A group that is together: `order` has each of its threads once, and all agree on `U`. -/
structure Together (U : Common) (order : List Nat) (s : GroupState) : Prop where
  nodup : order.Nodup
  full : ∀ t, t ∈ order ↔ t < s.threads.size
  agree : ∀ t ∈ order, ∀ t' ∈ order, (s.thread t).Agree U (s.thread t')

namespace Together
open Run GroupState
variable {U : Common} {order : List Nat} {s s' : GroupState} {ctx : GroupContext}

theorem keeps (h : Together U order s) (k : Keeps U s s') : Together U order s' where
  nodup := h.nodup
  full t := by rw [h.full, k.size]
  agree t ht t' ht' :=
    ⟨fun x hx => by rw [k.scalars t x hx, k.scalars t' x hx, (h.agree t ht t' ht').scalars x hx],
      fun x hx => by rw [k.arrays t x hx, k.arrays t' x hx, (h.agree t ht t' ht').arrays x hx]⟩

theorem mono {V : Common} (h : Together U order s) (hV : V ≤ U) : Together V order s where
  nodup := h.nodup
  full := h.full
  agree t ht t' ht' :=
    ⟨fun x hx => (h.agree t ht t' ht').scalars x (hV.scalar x hx),
      fun x hx => (h.agree t ht t' ht').arrays x (hV.array x hx)⟩

/-- The threads stay together if in the turns of any two of them what agrees before agrees after. -/
theorem forM {V : Common} (h : Together U order s) {f : Nat → Run Unit} {I : GroupState → Prop}
    {Q : Nat → Thread → Thread → Prop} (hI : I s)
    (step : ∀ t a b, t < a.threads.size → I a → f t a = .ok () b → I b ∧ OnlyThread t a b ∧
      Q t (a.thread t) (b.thread t))
    (same : ∀ t t' a a' b b', a.Agree U a' → Q t a b → Q t' a' b' → b.Agree V b') (run : order.forM f s = .ok () s') :
    Together V order s' := by
  have step' : ∀ t ∈ order, ∀ a b, (I a ∧ a.threads.size = s.threads.size) → f t a = .ok () b →
      (I b ∧ b.threads.size = s.threads.size) ∧ OnlyThread t a b ∧ Q t (a.thread t) (b.thread t) := by
    intro t ht a b ⟨hIa, hsize⟩ hab
    obtain ⟨hIb, only, hQ⟩ := step t a b (hsize ▸ (h.full t).mp ht) hIa hab
    exact ⟨⟨hIb, only.size.trans hsize⟩, only, hQ⟩
  obtain ⟨-, hsize, hall, -⟩ := forM_local step' h.nodup ⟨hI, rfl⟩ run
  exact ⟨h.nodup, fun t => by rw [h.full, hsize],
    fun t ht t' ht' => same _ _ _ _ _ _ (h.agree t ht t' ht') (hall t ht) (hall t' ht')⟩

end Together

/-- The element of an array, as a thread sees it. -/
def Thread.element (th : Thread) (shared global : Memory) (view : View) (index : Int64) : Except Fault Value :=
  match (match view.space with
    | .global => global[view.array]?
    | .shared => shared[view.array]?
    | .thread => th.arrays[view.array]?) with
  | some b => b.load view index
  | none => .error (.unknownArray view.array)

theorem Run.element_eq (s : GroupState) (t : Nat) (view : View) (index : Int64) :
    Run.element s t view index = (s.thread t).element s.shared s.global view index := by
  unfold Run.element Thread.element GroupState.buffer?
  cases view.space <;> rfl

theorem Thread.Agree.element_eq {U : Common} {a b : Thread} (h : a.Agree U b) {view : View}
    (hview : view.space = .thread → U.array view.array) (shared global : Memory) (index : Int64) :
    a.element shared global view index = b.element shared global view index := by
  unfold Thread.element
  cases hs : view.space with
  | global => rfl
  | shared => rfl
  | thread => simp only [h.arrays _ (hview hs)]

namespace Uniform
open Run GroupState
variable {U V : Common} {ctx : GroupContext} {order : List Nat} {s s' : GroupState}

/-! ### One statement for all threads -/

theorem bind_together {f : Nat → Run Unit} {name : Ident} {v : Nat → Value} (h : Together U order s)
    (hf : ∀ t a b, f t a = .ok () b → b = a.bind t name (v t)) (hv : U name → ∀ t t', v t = v t')
    (run : order.forM f s = .ok () s') : Together U order s' := by
  refine h.forM (I := fun _ => True) (Q := fun t a b => b = a.bind name (v t)) trivial ?_ ?_ run
  · rintro t a b ht - hab
    obtain rfl := hf t a b hab
    exact ⟨trivial, onlyThread_bind t a _ _, thread_modifyThread_self _ ht⟩
  · rintro t t' a a' b b' hagree rfl rfl
    exact hagree.bind fun hx => hv hx t t'

theorem set_together {name : Ident} {x : Exp} (hx : U name → x.Over U) (h : Together U order s)
    (run : order.forM (fun t => do let v ← value ctx t x; assign t name v : Nat → Run Unit) s = .ok () s') :
    Together U order s' := by
  refine h.forM (I := fun _ => True)
    (Q := fun _ a b => ∃ v, x.eval (a.scope ctx.captured) = .ok v ∧ b = a.bind name v) trivial ?_ ?_ run
  · rintro t a b ht - hab
    obtain ⟨v, hv, -, rfl⟩ := set_eq_ok.mp hab
    exact ⟨trivial, onlyThread_bind t a _ _, v, hv, thread_modifyThread_self _ ht⟩
  · rintro t t' a a' b b' hagree ⟨v, hv, rfl⟩ ⟨w, hw, rfl⟩
    refine hagree.bind fun hname => ?_
    rw [hagree.eval_eq (hx hname), hw] at hv
    cases hv
    rfl

theorem read_together {dest : Ident} {view : View} {index : Exp}
    (hdest : U dest → index.Over U ∧ (view.space = .thread → U.array view.array)) (h : Together U order s)
    (run : order.forM (fun t => do
      let i ← int ctx t index
      let v ← load t view i
      track ctx t view i false
      assign t dest v : Nat → Run Unit) s = .ok () s') : Together U order s' := by
  refine h.forM (I := fun a => a.shared = s.shared ∧ a.global = s.global)
    (Q := fun _ a b => ∃ i v, index.evalInt (a.scope ctx.captured) = .ok i ∧
      a.element s.shared s.global view i = .ok v ∧ b = a.bind dest v) ⟨rfl, rfl⟩ ?_ ?_ run
  · rintro t a b ht ⟨hshared, hglobal⟩ hab
    obtain ⟨i, v, races, hi, hv, rfl⟩ := read_ok hab
    rw [element_eq, hshared, hglobal] at hv
    have only : OnlyThread t a ({ a with races }.bind t dest v) :=
      OnlyThread.trans (b := { a with races }) (onlyThread_of_threads rfl) (onlyThread_bind t _ dest v)
    exact ⟨⟨hshared, hglobal⟩, only, i, v, hi, hv, thread_modifyThread_self (s := { a with races }) _ ht⟩
  · rintro t t' a a' b b' hagree ⟨i, v, hi, hv, rfl⟩ ⟨j, w, hj, hw, rfl⟩
    refine hagree.bind fun hname => ?_
    obtain ⟨hindex, hview⟩ := hdest hname
    rw [hagree.evalInt_eq hindex, hj] at hi
    cases hi
    rw [hagree.element_eq hview, hw] at hv
    cases hv
    rfl

theorem write_together {view : View} {index x : Exp}
    (hview : view.space = .thread → U.array view.array → index.Over U ∧ x.Over U) (h : Together U order s)
    (run : order.forM (fun t => do
      let i ← int ctx t index
      let v ← value ctx t x
      store t view i v
      track ctx t view i true : Nat → Run Unit) s = .ok () s') : Together U order s' := by
  refine h.forM (I := fun _ => True)
    (Q := fun _ a b => if view.space = .thread then
        ∃ i v p buffer, index.evalInt (a.scope ctx.captured) = .ok i ∧ x.eval (a.scope ctx.captured) = .ok v ∧
          a.arrays[view.array]? = some buffer ∧ buffer.position view i = .ok p ∧
          b = { a with arrays := a.arrays.modify view.array (·.put p v.toBits) }
      else b = a) trivial ?_ ?_ run
  · rintro t a b ht - hab
    obtain ⟨i, v, p, races, hi, hv, hp, rfl⟩ := write_ok hab
    refine ⟨trivial, (onlyThread_modifyBuffer t a _ _).trans (onlyThread_of_threads rfl), ?_⟩
    cases hs : view.space with
    | thread =>
      obtain ⟨-, buffer, hbuffer, hp⟩ := storable_eq_ok.mp hp
      refine ⟨i, v, p, buffer, hi, hv, buffer?_of_thread hs ▸ hbuffer, hp, ?_⟩
      show GroupState.thread (a.modifyBuffer t view _) t = _
      simp only [modifyBuffer, hs]
      exact thread_modifyThread_self _ ht
    | global => simp [modifyBuffer, hs, thread]
    | shared => simp [modifyBuffer, hs, thread]
  -- In an array of their own, two threads write the same value to the same place.
  · intro t t' a a' b b' hagree hb hb'
    split at hb
    · rename_i hs
      rw [if_pos hs] at hb'
      obtain ⟨i, v, p, buffer, hi, hv, hbuffer, hp, rfl⟩ := hb
      obtain ⟨i', v', p', buffer', hi', hv', hbuffer', hp', rfl⟩ := hb'
      refine hagree.modifyArray fun hname => ?_
      obtain ⟨hindex, hx⟩ := hview hs hname
      rw [hagree.evalInt_eq hindex, hi'] at hi
      rw [hagree.eval_eq hx, hv'] at hv
      rw [hagree.arrays _ hname, hbuffer'] at hbuffer
      cases hi
      cases hv
      cases hbuffer
      rw [hp'] at hp
      cases hp
      rfl
    · rename_i hs
      rw [if_neg hs] at hb'
      rw [hb, hb']
      exact hagree

theorem declareArray_together {name : Ident} {type : ScalarType} {length : Exp} {space : Space}
    (hlength : space = .thread → U.array name → length.Over U) (h : Together U order s)
    (run : order.forM (fun t => Run.declareArray ctx t name type length space) s = .ok () s') :
    Together U order s' := by
  refine h.forM (I := fun _ => True)
    (Q := fun _ a b => if space = .thread then
        ∃ i n, length.evalInt (a.scope ctx.captured) = .ok i ∧ arrayLength name i = .ok n ∧
          b = { a with arrays := a.arrays.insert name (.zeroed type n) }
      else b = a) trivial ?_ ?_ run
  · rintro t a b ht - hab
    obtain ⟨i, n, hi, hn, ⟨rfl, rfl⟩ | ⟨rfl, rfl⟩⟩ := declareArray_ok hab
    · exact ⟨trivial, onlyThread_of_threads (declareShared_threads a name type n),
        thread_of_threads (declareShared_threads a name type n) t⟩
    · exact ⟨trivial, onlyThread_modifyThread t a _, i, n, hi, hn, thread_modifyThread_self _ ht⟩
  -- Arrays of two threads have the same length, since the extent is over agreed variables.
  · intro t t' a a' b b' hagree hb hb'
    split at hb
    · rename_i hs
      rw [if_pos hs] at hb'
      obtain ⟨i, n, hi, hn, rfl⟩ := hb
      obtain ⟨i', n', hi', hn', rfl⟩ := hb'
      refine hagree.insertArray fun hname => ?_
      rw [hagree.evalInt_eq (hlength hs hname), hi'] at hi
      cases hi
      rw [hn'] at hn
      cases hn
      rfl
    · rename_i hs
      rw [if_neg hs] at hb'
      rw [hb, hb']
      exact hagree

/-! ### All code -/

/-- Threads that are together give the same answer to a question over `U`, or none. -/
theorem answers_same {α : Type} {g : Nat → GroupState → Except Fault α} {answers : List (Nat × α)}
    (h : Together U order s) (same : ∀ t t', (s.thread t).Agree U (s.thread t') → g t s = g t' s)
    (run : ask order (fun t => evaluate (g t)) s = .ok answers s') :
    answers.map (·.1) = order ∧ ∀ p ∈ answers, ∀ q ∈ answers, p.2 = q.2 := by
  obtain ⟨-, hfst, hall⟩ := ask_eq_ok run
  refine ⟨hfst, fun p hp q hq => ?_⟩
  have hp' : p.1 ∈ order := hfst ▸ List.mem_map_of_mem hp
  have hq' : q.1 ∈ order := hfst ▸ List.mem_map_of_mem hq
  exact Except.ok.inj ((hall p hp).symm.trans ((same _ _ (h.agree _ hp' _ hq')).trans (hall q hq)))

/-- A condition over `U` holds for all threads or for none. -/
theorem those_condition {c : Exp} {answers : List (Nat × Bool)} (hc : c.Over U) (h : Together U order s)
    (run : ask order (fun t => condition ctx t c) s = .ok answers s') :
    (those answers id = order ∧ those answers not = []) ∨ (those answers id = [] ∧ those answers not = order) := by
  obtain ⟨hfst, hsame⟩ := answers_same h (fun t t' ha => ha.evalBool_eq hc ctx.captured) run
  rcases answers with - | ⟨⟨t, b⟩, rest⟩
  · exact Or.inl ⟨hfst, rfl⟩
  · have hall : ∀ p ∈ (t, b) :: rest, p.2 = b := fun p hp => hsame p hp _ List.mem_cons_self
    cases b with
    | true =>
      exact Or.inl ⟨(those_eq_of_forall fun p hp => hall p hp).trans hfst,
        those_eq_nil_of_forall fun p hp => by rw [hall p hp]; rfl⟩
    | false =>
      exact Or.inr ⟨those_eq_nil_of_forall fun p hp => hall p hp,
        (those_eq_of_forall fun p hp => by rw [hall p hp]; rfl).trans hfst⟩

/-- What a group that agrees on `U` does together: it meets its barriers as a whole, and then it agrees
    on `V`. -/
def Sound (U V : Common) (order : List Nat) (masks : GroupState → List (List Nat)) (run : Run Unit) : Prop :=
  ∀ s, Together U order s → (∀ m ∈ masks s, m = order) ∧ ∀ s', run s = .ok () s' → Together V order s'

theorem sound_all {stmts : List Stmt}
    (ih : ∀ stmt ∈ stmts, Sound U U order (trace maskAt ctx stmt order) (exec ctx stmt order)) :
    Sound U U order (traceAll maskAt ctx stmts order) (execAll ctx stmts order) := by
  induction stmts with
  | nil =>
    intro s h
    refine ⟨by simp, fun s' hs' => ?_⟩
    rw [execAll_nil] at hs'
    exact (pure_eq_ok.mp hs').2 ▸ h
  | cons stmt stmts ihs =>
    intro s h
    obtain ⟨hmasks, hrun⟩ := ih stmt List.mem_cons_self s h
    have rest := ihs fun stmt' h' => ih stmt' (List.mem_cons_of_mem stmt h')
    constructor
    · intro m hm
      rw [traceAll_cons, List.mem_append, mem_after] at hm
      rcases hm with hm | ⟨_, s₁, h₁, hm⟩
      · exact hmasks m hm
      · exact (rest s₁ (hrun s₁ h₁)).1 m hm
    · intro s' hs'
      obtain ⟨_, s₁, h₁, h₂⟩ := bind_eq_ok.mp (execAll_cons stmt stmts ▸ hs')
      exact (rest s₁ (hrun s₁ h₁)).2 s' h₂

theorem sound_countUp {body : Nat → Run Unit} {masks : Nat → GroupState → List (List Nat)} :
    ∀ (count first : Nat), (∀ k, k < first + count → Sound U U order (masks k) (body k)) →
      Sound U U order (traceUp body masks count first) (countUp body count first)
  | 0, first, _ => fun s h => ⟨by simp [traceUp], fun s' hs' => (pure_eq_ok.mp hs').2 ▸ h⟩
  | n + 1, first, ih => fun s h => by
    obtain ⟨hmasks, hrun⟩ := ih first (by omega) s h
    have rest := sound_countUp n (first + 1) fun k hk => ih k (by omega)
    constructor
    · intro m hm
      rw [traceUp, List.mem_append, mem_after] at hm
      rcases hm with hm | ⟨_, s₁, h₁, hm⟩
      · exact hmasks m hm
      · exact (rest s₁ (hrun s₁ h₁)).1 m hm
    · intro s' hs'
      obtain ⟨_, s₁, h₁, h₂⟩ := bind_eq_ok.mp hs'
      exact (rest s₁ (hrun s₁ h₁)).2 s' h₂

theorem sound_whileLive {c : Exp} {body : Stmt} (hc : c.Over U)
    (ih : Sound U U order (trace maskAt ctx body order) (exec ctx body order)) :
    ∀ limit, Sound U U order
      (traceWhile (loopTest ctx c) (fun live => exec ctx body live) (fun live s => trace maskAt ctx body live s)
        limit order)
      (whileLive (loopTest ctx c) (fun live => exec ctx body live) limit order)
  | 0 => fun s h => by
    refine ⟨by simp [traceWhile], fun s' hs' => ?_⟩
    obtain ⟨live, s₁, htest, hend⟩ := bind_eq_ok.mp hs'
    split at hend
    · exact (pure_eq_ok.mp hend).2 ▸ (loopTest_ok htest).1 ▸ h
    · exact absurd hend (by simp [throw_ne_ok])
  | n + 1 => fun s h => by
    -- The test leaves either the whole group or nobody in the loop.
    have test : ∀ live s₁, loopTest ctx c order s = .ok live s₁ → s₁ = s ∧ (live = order ∨ live = []) := by
      intro live s₁ htest
      obtain ⟨rfl, answers, hask, rfl⟩ := loopTest_ok htest
      rcases those_condition hc h hask with ⟨hlive, -⟩ | ⟨hlive, -⟩
      · exact ⟨rfl, Or.inl hlive⟩
      · exact ⟨rfl, Or.inr hlive⟩
    -- A test that agrees leaves all threads in the loop, or none.
    obtain ⟨hmasks, hrun⟩ := ih s h
    have rest := sound_whileLive hc ih n
    constructor
    · intro m hm
      rw [traceWhile, mem_after] at hm
      obtain ⟨live, s₁, htest, hm⟩ := hm
      obtain ⟨rfl, rfl | rfl⟩ := test live s₁ htest
      · split at hm
        · simp at hm
        · rw [List.mem_append, mem_after] at hm
          rcases hm with hm | ⟨_, s₂, h₂, hm⟩
          · exact hmasks m hm
          · exact (rest s₂ (hrun s₂ h₂)).1 m hm
      · simp at hm
    · intro s' hs'
      obtain ⟨live, s₁, htest, hend⟩ := bind_eq_ok.mp hs'
      obtain ⟨rfl, rfl | rfl⟩ := test live s₁ htest
      · split at hend
        · exact (pure_eq_ok.mp hend).2 ▸ h
        · obtain ⟨_, s₂, h₂, h₃⟩ := bind_eq_ok.mp hend
          exact (rest s₂ (hrun s₂ h₂)).2 s' h₃
      · exact (pure_eq_ok.mp hend).2 ▸ h

theorem sound_branch {c : Exp} {ifTrue ifFalse : Stmt} (hne : order ≠ []) (hc : c.Over U)
    (ih₁ : Sound U V order (trace maskAt ctx ifTrue order) (exec ctx ifTrue order))
    (ih₂ : Sound U V order (trace maskAt ctx ifFalse order) (exec ctx ifFalse order)) :
    Sound U V order (trace maskAt ctx (.branch c ifTrue ifFalse) order)
      (exec ctx (.branch c ifTrue ifFalse) order) := by
  have notEmpty : order.isEmpty = false := by simpa using hne
  intro s h
  -- All threads answer alike, so one of the sides is run by all and the other one by none.
  have sides : ∀ answers s₁, ask order (fun t => condition ctx t _) s = .ok answers s₁ → _ :=
    fun answers s₁ hask => those_condition hc h hask
  constructor
  · intro m hm
    unfold trace at hm
    rw [notEmpty, if_neg Bool.false_ne_true, mem_after] at hm
    obtain ⟨answers, s₁, hask, hm⟩ := hm
    obtain ⟨rfl, -, -⟩ := ask_eq_ok hask
    rw [List.mem_append, mem_after] at hm
    rcases sides answers _ hask with ⟨h₁, h₂⟩ | ⟨h₁, h₂⟩ <;> rw [h₁, h₂] at hm
    · rcases hm with hm | ⟨_, s₂, -, hm⟩
      · exact (ih₁ _ h).1 m hm
      · simp at hm
    · rcases hm with hm | ⟨_, s₂, hs₂, hm⟩
      · simp at hm
      · obtain ⟨-, rfl⟩ := pure_eq_ok.mp (exec_nil ctx _ ▸ hs₂)
        exact (ih₂ _ h).1 m hm
  · intro s' hs'
    obtain ⟨answers, s₁, hask, hs₁, hs₂⟩ := exec_branch_ok hne hs'
    rcases sides answers _ hask with ⟨h₁, h₂⟩ | ⟨h₁, h₂⟩ <;> rw [h₁] at hs₁ <;> rw [h₂] at hs₂
    · exact (pure_eq_ok.mp (exec_nil ctx _ ▸ hs₂)).2 ▸ (ih₁ _ h).2 s₁ hs₁
    · obtain ⟨-, rfl⟩ := pure_eq_ok.mp (exec_nil ctx _ ▸ hs₁)
      exact (ih₂ _ h).2 s' hs₂

theorem sound_loop {iter : Ident} {bound : Exp} {body : Stmt} (hne : order ≠ []) (hb : bound.Over U)
    (ih : Sound U U order (trace maskAt ctx body order) (exec ctx body order)) :
    Sound U U order (trace maskAt ctx (.loop iter bound body) order) (exec ctx (.loop iter bound body) order) := by
  have notEmpty : order.isEmpty = false := by simpa using hne
  intro s h
  -- All threads have the same bound, so each round is run by the whole group.
  have rounds : ∀ bounds s₁, ask order (fun t => int ctx t bound) s = .ok bounds s₁ →
      Sound U U order
        (traceUp (loopStep ctx iter body bounds) (fun k s =>
          let inner := those bounds fun b => k < b.toInt
          after (inner.forM fun t => modify fun s => s.bind t iter (.i64 (Int64.ofNat k))) s fun _ s =>
            trace maskAt ctx body inner s) (trips bounds) 0)
        (countUp (loopStep ctx iter body bounds) (trips bounds) 0) := by
    intro bounds s₁ hask
    obtain ⟨hfst, hsame⟩ := answers_same h (fun t t' ha => ha.evalInt_eq hb ctx.captured) hask
    have hbounds : bounds ≠ [] := by
      rintro rfl
      exact hne hfst.symm
    obtain ⟨p, hp⟩ := List.exists_mem_of_ne_nil bounds hbounds
    have hall : ∀ q ∈ bounds, q.2 = p.2 := fun q hq => hsame q hq p hp
    refine sound_countUp _ _ fun k hk => ?_
    rw [trips_eq_of_forall hbounds hall, Nat.zero_add] at hk
    have hinner : those bounds (fun b => decide (k < b.toInt)) = order := by
      rw [those_eq_of_forall, hfst]
      intro q hq
      rw [hall q hq, decide_eq_true_eq]
      omega
    have turn : ∀ a b, Together U order a →
        order.forM (fun t => (modify fun s => s.bind t iter (.i64 (Int64.ofNat k)) : Run Unit)) a = .ok () b →
        Together U order b := fun a b ha hab =>
      bind_together (v := fun _ => .i64 (Int64.ofNat k)) ha (fun t c d hcd => modify_eq_ok.mp hcd)
        (fun _ _ _ => rfl) hab
    intro a ha
    constructor
    · intro m hm
      rw [hinner, mem_after] at hm
      obtain ⟨_, b, hab, hm⟩ := hm
      exact (ih b (turn a b ha hab)).1 m hm
    · intro b hab
      unfold loopStep at hab
      rw [hinner] at hab
      obtain ⟨_, c, hac, hcb⟩ := bind_eq_ok.mp hab
      exact (ih c (turn a c ha hac)).2 b hcb
  constructor
  · intro m hm
    unfold trace at hm
    rw [notEmpty, if_neg Bool.false_ne_true, mem_after] at hm
    obtain ⟨bounds, s₁, hask, hm⟩ := hm
    obtain ⟨rfl, -, -⟩ := ask_eq_ok hask
    split at hm
    · simp at hm
    · exact (rounds bounds _ hask _ h).1 m hm
  · intro s' hs'
    obtain ⟨bounds, hask, hrounds⟩ := exec_loop_ok hne hs'
    exact (rounds bounds _ hask _ h).2 s' hrounds

/-- Uniform code keeps the group together. -/
theorem sound {stmt : Stmt} (u : Uniform U stmt) :
    Sound U U order (trace maskAt ctx stmt order) (exec ctx stmt order) := by
  rcases eq_or_ne order [] with rfl | hne
  · exact fun s h => ⟨by simp, fun s' hs' => (pure_eq_ok.mp (exec_nil ctx stmt ▸ hs')).2 ▸ h⟩
  have notEmpty : order.isEmpty = false := by simpa using hne
  -- A loop is run in common as its bound, or its condition, is of common variables.
  induction u with
  | quiet q => exact fun s h => ⟨by simp [q.masks], fun s' hs' => h.keeps (q.keeps hs')⟩
  | seq _ ih =>
    intro s h
    rw [trace_seq, exec_seq_eq]
    exact sound_all ih s h
  | comment _ ih =>
    intro s h
    rw [trace_comment, exec_comment]
    exact ih s h
  | branch hc _ _ ih₁ ih₂ => exact sound_branch hne hc ih₁ ih₂
  | loop hb _ ih => exact sound_loop hne hb ih
  | @repeatWhile c body hc _ ih =>
    intro s h
    have := sound_whileLive hc ih ctx.loopLimit s h
    rw [exec_repeatWhile hne]
    unfold trace
    rw [notEmpty, if_neg Bool.false_ne_true]
    exact this
  | barrier =>
    intro s h
    unfold trace exec
    rw [notEmpty, if_neg Bool.false_ne_true, if_neg Bool.false_ne_true]
    refine ⟨by simp, fun s' hs' => ?_⟩
    obtain rfl := modify_eq_ok.mp hs'
    exact h.keeps (Keeps.of_threads rfl)
  | declare =>
    intro s h
    unfold trace exec
    rw [notEmpty, if_neg Bool.false_ne_true, if_neg Bool.false_ne_true]
    exact ⟨by simp, fun s' hs' => bind_together (v := fun _ => .zero _) h (fun t a b hab => modify_eq_ok.mp hab)
      (fun _ _ _ => rfl) hs'⟩
  | declareArray hlength =>
    intro s h
    unfold trace exec
    rw [notEmpty, if_neg Bool.false_ne_true, if_neg Bool.false_ne_true]
    exact ⟨by simp, fun s' hs' => declareArray_together hlength h hs'⟩
  | set hx =>
    intro s h
    unfold trace exec
    rw [notEmpty, if_neg Bool.false_ne_true, if_neg Bool.false_ne_true]
    exact ⟨by simp, fun s' hs' => set_together hx h hs'⟩
  | read hdest =>
    intro s h
    unfold trace exec
    rw [notEmpty, if_neg Bool.false_ne_true, if_neg Bool.false_ne_true]
    exact ⟨by simp, fun s' hs' => read_together hdest h hs'⟩
  | write hview =>
    intro s h
    unfold trace exec
    rw [notEmpty, if_neg Bool.false_ne_true, if_neg Bool.false_ne_true]
    exact ⟨by simp, fun s' hs' => write_together hview h hs'⟩
  | @query which dest hwhich =>
    intro s h
    unfold trace exec
    rw [notEmpty, if_neg Bool.false_ne_true, if_neg Bool.false_ne_true]
    refine ⟨by simp, fun s' hs' => bind_together (v := fun t => .i64 (answer ctx t which)) h
      (fun t a b hab => modify_eq_ok.mp hab) (fun hdest t t' => ?_) hs'⟩
    obtain ⟨h₁, h₂⟩ := hwhich hdest
    cases which <;> first | rfl | exact absurd rfl h₁ | exact absurd rfl h₂

end Uniform
end SegKernel
