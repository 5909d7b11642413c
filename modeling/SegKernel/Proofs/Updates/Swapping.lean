import SegKernel.Proofs.Updates.Active
import SegKernel.Proofs.Execution.Contents
import Mathlib.Logic.Function.Basic

/-! Atomic operations of threads that contend for the elements of an array. Each thread has an index of its
    own, and several threads may have the same one. A thread that finds what it expects gets its way; the
    others learn what is there. -/

namespace SegKernel

/-- A thread knows some variables, and has some arrays of its own. -/
structure Thread.Knows (captured : Table Value) (σ : Scope) (own : Memory) (th : Thread) : Prop where
  scope : σ.Le (th.scope captured)
  arrays : th.arrays = own

namespace Thread.Knows
variable {captured : Table Value} {σ τ : Scope} {own : Memory} {th : Thread}

theorem forget (h : th.Knows captured σ own) (hle : τ.Le σ) : th.Knows captured τ own := ⟨hle.trans h.scope, h.arrays⟩

theorem bind (h : th.Knows captured σ own) (name : Ident) (v : Value) :
    (th.bind name v).Knows captured (σ.set name v) own :=
  ⟨Thread.set_le_scope_bind h.scope, h.arrays⟩

end Thread.Knows

/-- Each thread has the element at its index of a view, and the others are what they were. -/
structure Binned (view : View) (i : Nat → Nat) (all : List Nat) (m₀ : Store) (x : Nat → Value) (m : Store) :
    Prop where
  layout : ∀ space array, m.layout? space array = m₀.layout? space array
  holds : ∀ t ∈ all, m.Holds view (i t) (x (i t))
  frame : ∀ p, (∀ t ∈ all, p ≠ view.slot (i t)) → m.bits? p = m₀.bits? p

/-- A thread replaces the element at its index. -/
def advance {α : Type} (i : Nat → Nat) (f : Nat → α → α) (x : Nat → α) (t : Nat) : Nat → α :=
  Function.update x (i t) (f t (x (i t)))

section
variable {α : Type} {i : Nat → Nat} {f : Nat → α → α} {x : Nat → α} {t t' : Nat}

theorem advance_of_ne (h : i t ≠ i t') : advance i f x t' (i t) = x (i t) := Function.update_of_ne h _ x

theorem advance_of_eq (h : i t = i t') : advance i f x t' (i t) = f t' (x (i t)) := by
  rw [advance, h, Function.update_self]

/-- An element that no thread replaces stays. -/
theorem foldl_advance_of_forall_ne {order : List Nat} {n : Nat} (h : ∀ t ∈ order, i t ≠ n) :
    order.foldl (advance i f) x n = x n := by
  induction order generalizing x with
  | nil => rfl
  | cons t order ih =>
    rw [List.foldl_cons, ih fun t' ht' => h t' (List.mem_cons_of_mem t ht')]
    exact Function.update_of_ne (h t List.mem_cons_self).symm _ x

/-- Threads with indices of their own do not meet. -/
theorem foldl_advance_of_pairwise {order : List Nat} (h : order.Pairwise fun t t' => i t ≠ i t') (ht : t ∈ order) :
    order.foldl (advance i f) x (i t) = f t (x (i t)) := by
  induction order generalizing x with
  | nil => exact absurd ht List.not_mem_nil
  | cons t' order ih =>
    obtain ⟨hfirst, hrest⟩ := List.pairwise_cons.mp h
    rw [List.foldl_cons]
    rcases List.mem_cons.mp ht with rfl | ht
    · rw [foldl_advance_of_forall_ne fun t' ht' => (hfirst t' ht').symm]
      exact advance_of_eq rfl
    · rw [ih hrest ht, advance_of_ne (hfirst t ht).symm]

/-- Elements that are related stay so, if the replacements are. -/
theorem foldl_advance_related {β : Type} {g : Nat → β → β} {y : Nat → β} {R : α → β → Prop} {all order : List Nat}
    (hstep : ∀ t ∈ all, ∀ a b, R a b → R (f t a) (g t b)) (hsub : ∀ t ∈ order, t ∈ all)
    (h : ∀ t ∈ all, R (x (i t)) (y (i t))) :
    ∀ t ∈ all, R (order.foldl (advance i f) x (i t)) (order.foldl (advance i g) y (i t)) := by
  induction order generalizing x y with
  | nil => exact h
  | cons t' order ih =>
    have ht' := hsub t' List.mem_cons_self
    refine ih (fun t ht => hsub t (List.mem_cons_of_mem t' ht)) fun t ht => ?_
    by_cases e : i t = i t'
    · rw [advance_of_eq e, advance_of_eq e]
      exact hstep t' ht' _ _ (h t ht)
    · rw [advance_of_ne e, advance_of_ne e]
      exact h t ht

end

/-- The threads that get their way among those that have taken their turns. Where an element is no longer
    what all expect, no thread gets its way, so it stays what it is. -/
structure Won {α : Type} (i : Nat → Nat) (f : Nat → α → α) (x : Nat → α) (turns won : List Nat) : Prop where
  sublist : won.Sublist turns
  ne_nil : turns ≠ [] → won ≠ []
  lost : ∀ t ∈ turns, t ∉ won → won.foldl (advance i f) x (i t) ≠ x (i t)
  changed : ∀ t ∈ won, f t (x (i t)) ≠ x (i t) → won.foldl (advance i f) x (i t) ≠ x (i t)
  pairwise : won.Pairwise fun t t' => f t (x (i t)) ≠ x (i t) → i t ≠ i t'

namespace Won
variable {α : Type} {i : Nat → Nat} {f : Nat → α → α} {x : Nat → α} {turns won : List Nat} {t : Nat}

theorem start : Won i f x [] [] :=
  ⟨List.Sublist.slnil, id, by simp, by simp, .nil⟩

theorem win (h : Won i f x turns won) (ht : won.foldl (advance i f) x (i t) = x (i t)) :
    Won i f x (turns ++ [t]) (won ++ [t]) where
  sublist := h.sublist.append (List.Sublist.refl [t])
  ne_nil _ := by simp
  lost t' ht' hnot := by
    rw [List.mem_append, List.mem_singleton, not_or] at hnot
    have hlost := h.lost t' ((List.mem_append.mp ht').resolve_right (by simpa using hnot.2)) hnot.1
    have hne : i t' ≠ i t := fun e => hlost (by rw [e, ht])
    rwa [List.foldl_append, List.foldl_cons, List.foldl_nil, advance_of_ne hne]
  changed t' ht' hf := by
    rw [List.foldl_append, List.foldl_cons, List.foldl_nil]
    by_cases e : i t' = i t
    · rcases List.mem_append.mp ht' with ht' | ht'
      · exact absurd (e ▸ ht) (h.changed t' ht' hf)
      · obtain rfl := List.mem_singleton.mp ht'
        rwa [advance_of_eq rfl, ht]
    · rcases List.mem_append.mp ht' with ht' | ht'
      · rw [advance_of_ne e]
        exact h.changed t' ht' hf
      · exact absurd (congrArg i (List.mem_singleton.mp ht')) e
  pairwise := List.pairwise_append.mpr ⟨h.pairwise, List.pairwise_singleton _ t, fun t' ht' t'' ht'' hf e => by
    obtain rfl := List.mem_singleton.mp ht''
    exact h.changed t' ht' hf (by rw [e, ht])⟩

theorem lose (h : Won i f x turns won) (ht : won.foldl (advance i f) x (i t) ≠ x (i t)) :
    Won i f x (turns ++ [t]) won where
  sublist := h.sublist.trans (List.sublist_append_left turns [t])
  ne_nil _ hnil := ht (by rw [hnil, List.foldl_nil])
  lost t' ht' hnot := by
    rcases List.mem_append.mp ht' with ht' | ht'
    · exact h.lost t' ht' hnot
    · rwa [List.mem_singleton.mp ht']
  changed := h.changed
  pairwise := h.pairwise

/-- The threads that get their way and the others. -/
theorem perm_filter (h : Won i f x turns won) (hnd : turns.Nodup) : (won ++ turns.filter (· ∉ won)).Perm turns := by
  have hnd' : (won ++ turns.filter (· ∉ won)).Nodup := List.nodup_append.mpr ⟨h.sublist.nodup hnd, hnd.filter _,
    fun t ht t' ht' e => of_decide_eq_true (List.mem_filter.mp ht').2 (e ▸ ht)⟩
  refine (List.perm_ext_iff_of_nodup hnd' hnd).mpr fun t => ?_
  simp only [List.mem_append, List.mem_filter, decide_eq_true_eq]
  by_cases ht : t ∈ won
  · simp [ht, h.sublist.subset ht]
  · simp [ht]

/-- Where all want to change the element, one thread at most gets its way. -/
theorem apart (h : Won i f x turns won) (hf : ∀ t ∈ won, f t (x (i t)) ≠ x (i t)) :
    won.Pairwise fun t t' => i t ≠ i t' :=
  List.Pairwise.imp_of_mem (fun ht _ hne => hne (hf _ ht)) h.pairwise

/-- A thread that does not get its way meets one that does. -/
theorem exists_of_lost (h : Won i f x turns won) (ht : t ∈ turns) (hnot : t ∉ won) : ∃ t' ∈ won, i t' = i t := by
  by_contra hnone
  push Not at hnone
  exact h.lost t ht hnot (foldl_advance_of_forall_ne hnone)

end Won

theorem Binned.put {view : View} {i : Nat → Nat} {all : List Nat} {m₀ m : Store} {x : Nat → Value}
    (h : Binned view i all m₀ x m) {t : Nat} (ht : t ∈ all) {v : Value} (hv : v.type = view.type) :
    Binned view i all m₀ (Function.update x (i t) v) (m.put ⟨view.slot (i t), v.toBits⟩) where
  layout space array := (Store.layout?_put _ _ _).trans (h.layout space array)
  holds t' ht' := by
    by_cases e : i t' = i t
    · rw [e, Function.update_self]
      exact (h.holds t ht).reaches.holds_put hv
    · rw [Function.update_of_ne e]
      exact (h.holds t' ht').put_of_ne fun hslot => e (congrArg Slot.position hslot).symm
  frame p hp := by
    rw [Store.bits?_put, if_neg (hp t ht).symm]
    exact h.frame p hp

/-! ### The turn of a thread -/

/-- What a thread needs for a compare-and-swap of the element at `i` from `e` to `d`. -/
structure CanSwap (ctx : GroupContext) (old : Ident) (view : View) (index expected desired : Exp) (i : Nat)
    (e d : Value) (th : Thread) : Prop where
  index : Exp.IsInt (th.scope ctx.captured) index i
  expected : expected.eval (th.scope ctx.captured) = .ok e
  desired : desired.eval (th.scope ctx.captured) = .ok d
  types : e.type = view.type ∧ d.type = view.type
  own : ∃ w, th.scalars[old]? = some w ∧ w.type = view.type

/-- What a thread needs for an update of the element at `i` from `e` to `d`. -/
structure CanUpdate (ctx : GroupContext) (op : AtomicOp) (old : Ident) (view : View) (index value : Exp) (i : Nat)
    (e d : Value) (th : Thread) : Prop where
  index : Exp.IsInt (th.scope ctx.captured) index i
  value : ∃ v, value.eval (th.scope ctx.captured) = .ok v ∧ Run.combine op e v = .ok d
  type : d.type = view.type
  own : ∃ w, th.scalars[old]? = some w ∧ w.type = view.type

namespace Run
open GroupState
variable {ctx : GroupContext} {t : Nat} {s : GroupState} {view : View} {old : Ident} {index : Exp} {i : Nat}
  {e d current : Value}

theorem store_eq {a : Int64} {v : Value} (hview : view.space ≠ .thread) (hv : v.type = view.type)
    (ha : s.store.position view a = .ok i) : store t view a v s = .ok () (s.modifyBuffer t view (·.put i v.toBits)) :=
  store_eq_ok.mpr ⟨i, storable_of_shared hview hv ha, rfl⟩

theorem load_eq {a : Int64} {v : Value} (hview : view.space ≠ .thread) (ha : s.store.load view a = .ok v) :
    load t view a s = .ok v s :=
  load_eq_ok.mpr ⟨(element_of_shared hview a).trans ha, rfl⟩

theorem assign_eq {name : Ident} {v w : Value} (h : (s.thread t).scalars[name]? = some w) (htype : w.type = v.type) :
    assign t name v s = .ok () (s.bind t name v) :=
  assign_eq_ok.mpr ⟨⟨w, h, htype⟩, rfl⟩

theorem exec_update {op : AtomicOp} {value : Exp} {active : List Nat} :
    exec ctx (.update op old view index value) active = active.forM fun t => update ctx t op old view index value := by
  cases active <;> rw [exec] <;> rfl

theorem exec_compareSwap {expected desired : Exp} {active : List Nat} :
    exec ctx (.compareSwap old view index expected desired) active =
      active.forM fun t => compareSwap ctx t old view index expected desired := by
  cases active <;> rw [exec] <;> rfl

theorem compareSwap_eq {expected desired : Exp} (h : CanSwap ctx old view index expected desired i e d (s.thread t))
    (hcurrent : s.store.Holds view i current) : compareSwap ctx t old view index expected desired s =
    .ok () ((if current = e then s.modifyBuffer t view (·.put i d.toBits) else s).bind t old current).countAtomic := by
  obtain ⟨w, hw, hwtype⟩ := h.own
  obtain ⟨a, ha, hai⟩ := h.index.evalInt
  have hview := hcurrent.reaches.space_ne
  have hassign : ∀ {s₁ : GroupState}, s₁.threads = s.threads →
      assign t old current s₁ = .ok () (s₁.bind t old current) := fun hs₁ =>
    assign_eq (by rwa [thread_of_threads hs₁]) (hwtype.trans hcurrent.type.symm)
  simp only [compareSwap, bind_apply, int_eq_ok.mpr ⟨ha, rfl⟩, value_eq_ok.mpr ⟨h.expected, rfl⟩,
    value_eq_ok.mpr ⟨h.desired, rfl⟩, load_eq hview (hcurrent.load hai), h.types.1, ne_eq, not_true_eq_false, if_false]
  split
  · simp only [bind_apply, store_eq hview h.types.2 (hcurrent.reaches.position hai),
      hassign (threads_modifyBuffer hview _)]
    rfl
  · simp only [bind_apply, hassign rfl]
    rfl

theorem update_eq {op : AtomicOp} {value : Exp} (h : CanUpdate ctx op old view index value i current d (s.thread t))
    (hcurrent : s.store.Holds view i current) :
    update ctx t op old view index value s =
      .ok () ((s.modifyBuffer t view (·.put i d.toBits)).bind t old current).countAtomic := by
  obtain ⟨w, hw, hwtype⟩ := h.own
  obtain ⟨a, ha, hai⟩ := h.index.evalInt
  obtain ⟨v, hv, hcombine⟩ := h.value
  have hview := hcurrent.reaches.space_ne
  have hassign : assign t old current (s.modifyBuffer t view (·.put i d.toBits)) = .ok () _ :=
    assign_eq (by rwa [thread_of_threads (threads_modifyBuffer hview _)]) (hwtype.trans hcurrent.type.symm)
  have hnew : evaluate (fun _ => combine op current v) s = .ok d s := evaluate_eq_ok.mpr ⟨hcombine, rfl⟩
  simp only [update, bind_apply, int_eq_ok.mpr ⟨ha, rfl⟩, value_eq_ok.mpr ⟨hv, rfl⟩, load_eq hview (hcurrent.load hai),
    hnew, store_eq hview h.type (hcurrent.reaches.position hai), hassign]
  rfl

end Run

namespace Run.Brings
open GroupState
variable {ctx : GroupContext} {active : List Nat} {P Q : Scene} {T : Nat → Thread → Prop}

/-- A turn in which a thread changes the memory and one of its variables. -/
theorem turn {r : Run Unit} {t : Nat} (h : ∀ s : GroupState, P s.store s.thread →
    ∃ (s₁ : GroupState) (name : Ident) (v : Value), s₁.threads = s.threads ∧
      r s = .ok () (s₁.bind t name v).countAtomic ∧
        Q s₁.store (Function.update s.thread t ((s.thread t).bind name v))) :
    Brings [t] P r Q := by
  intro s hlt hP
  obtain ⟨s₁, name, v, hthreads, hr, hQ⟩ := h s hP
  have ht : t < s₁.threads.size := hthreads ▸ hlt t (List.mem_singleton_self t)
  have hthread : s₁.thread = s.thread := funext (thread_of_threads hthreads)
  have hself : (s₁.bind t name v).thread = Function.update s.thread t ((s.thread t).bind name v) := by
    funext t'
    by_cases e : t' = t
    · subst e
      rw [Function.update_self, ← hthread]
      exact thread_modifyThread_self _ ht
    · rw [Function.update_of_ne e, ← hthread]
      exact thread_modifyThread_of_ne _ _ e
  refine ⟨_, hr, (size_modifyThread _ _ _).trans (by rw [hthreads]), fun t' ht' => ?_, ?_⟩
  · exact (congrFun hself t').trans (Function.update_of_ne (by simpa using ht') _ _)
  · exact (show Q s₁.store (s₁.bind t name v).thread from hself ▸ hQ)

variable {view : View} {old : Ident} {index : Exp} {all : List Nat} {i : Nat → Nat} {f : Nat → Value → Value}
  {m₀ : Store} {x : Nat → Value}

/-- What the turns have made of the threads. A thread that has not taken its turn is what it was. -/
def Turned (old : Ident) (T : Nat → Thread → Prop) (turns : List Nat) (v : Nat → Value) (t : Nat) (th : Thread) :
    Prop :=
  if t ∈ turns then ∃ th₀, T t th₀ ∧ th = th₀.bind old (v t) else T t th

theorem turned_of_not_mem {turns : List Nat} {v : Nat → Value} {t : Nat} {th : Thread} (h : t ∉ turns) :
    Turned old T turns v t th ↔ T t th := by
  rw [Turned, if_neg h]

/-- The next thread takes its turn. -/
theorem turned_next {turns : List Nat} {v w : Nat → Value} {t : Nat} {th : Nat → Thread}
    (h : ∀ t' ∈ active, Turned old T turns v t' (th t')) (ht : t ∉ turns) (hmem : t ∈ active)
    (hv : ∀ t' ∈ turns, w t' = v t') :
    ∀ t' ∈ active, Turned old T (turns ++ [t]) w t' (Function.update th t ((th t).bind old (w t)) t') := by
  intro t' ht'
  unfold Turned
  by_cases e : t' = t
  · subst e
    rw [if_pos (by simp), Function.update_self]
    exact ⟨th t', (turned_of_not_mem ht).mp (h t' ht'), rfl⟩
  · have hmem' : t' ∈ turns ++ [t] ↔ t' ∈ turns := by simp [e]
    have := h t' ht'
    unfold Turned at this
    rw [Function.update_of_ne e]
    by_cases hturns : t' ∈ turns
    · rw [if_pos hturns] at this
      rwa [if_pos (hmem'.mpr hturns), hv t' hturns]
    · rw [if_neg hturns] at this
      rwa [if_neg (mt hmem'.mp hturns)]

theorem not_mem_of_nodup {before after : List Nat} {t : Nat} (hnd : active.Nodup) (e : active = before ++ t :: after) :
    t ∉ before := fun h =>
  (List.nodup_append.mp (e ▸ hnd)).2.2 t h t List.mem_cons_self rfl

/-- Each thread updates the element at its index. -/
theorem updates {op : AtomicOp} {value : Exp} (hnd : active.Nodup) (hall : ∀ t ∈ active, t ∈ all)
    (hT : ∀ t ∈ active, ∀ th v, v.type = view.type → T t th →
      CanUpdate ctx op old view index value (i t) v (f t v) th) :
    Brings active (Scene.of active (Binned view i all m₀ x) T) (Run.exec ctx (.update op old view index value) active)
      fun m th => Binned view i all m₀ (active.foldl (advance i f) x) m ∧
        ∀ t ∈ active, ∃ th₀ v, T t th₀ ∧ th t = th₀.bind old v := by
  -- The invariant over the threads that had their turn: their updates are folded, in that order.
  have hturns : Brings active
      (fun m th => Binned view i all m₀ (([] : List Nat).foldl (advance i f) x) m ∧
        ∃ v, ∀ t ∈ active, Turned old T [] v t (th t))
      (active.forM fun t => Run.update ctx t op old view index value)
      (fun m th => Binned view i all m₀ (active.foldl (advance i f) x) m ∧ ∃ v, ∀ t ∈ active, Turned old T active v t
      (th t)) := by
    refine forM (fun before m th => Binned view i all m₀ (before.foldl (advance i f) x) m ∧
      ∃ v, ∀ t ∈ active, Turned old T before v t (th t)) fun before t after e => turn fun s hs => ?_
    obtain ⟨hm, v, hth⟩ := hs
    have ht : t ∈ active := e ▸ List.mem_append_right before List.mem_cons_self
    have hnot := not_mem_of_nodup hnd e
    have hcurrent := hm.holds t (hall t ht)
    have hcan := hT t ht (s.thread t) _ hcurrent.type ((turned_of_not_mem hnot).mp (hth t ht))
    refine ⟨_, _, _, threads_modifyBuffer hcurrent.reaches.space_ne _, Run.update_eq hcan hcurrent, ?_,
      Function.update v t (before.foldl (advance i f) x (i t)), ?_⟩
    · rw [List.foldl_append, store_modifyBuffer hcurrent.reaches.space_ne]
      exact hm.put (hall t ht) hcan.type
    · have := turned_next (w := Function.update v t (before.foldl (advance i f) x (i t))) hth hnot ht
        fun t' ht' => Function.update_of_ne (ne_of_mem_of_not_mem ht' hnot) _ v
      rwa [Function.update_self] at this
  rw [exec_update]
  refine hturns.imp (fun m th hm => ⟨hm.1, fun _ => .zero .bool, fun t ht => ?_⟩) fun m th hm => ⟨hm.1, fun t ht => ?_⟩
  · exact (turned_of_not_mem List.not_mem_nil).mpr (hm.2 t ht)
  · obtain ⟨v, hth⟩ := hm.2
    have := hth t ht
    rw [Turned, if_pos ht] at this
    obtain ⟨th₀, hth₀, e⟩ := this
    exact ⟨th₀, v t, hth₀, e⟩

variable (m₀) in
/-- Each thread tries to replace the element at its index, where all expect what is there at first. A thread
    that does not get its way learns what is there until the end. -/
theorem contest {expected desired : Exp} (hnd : active.Nodup) (hall : ∀ t ∈ active, t ∈ all)
    (hT : ∀ t ∈ active, ∀ th, T t th →
      CanSwap ctx old view index expected desired (i t) (x (i t)) (f t (x (i t))) th) :
    Brings active (Scene.of active (Binned view i all m₀ x) T)
      (Run.exec ctx (.compareSwap old view index expected desired) active) fun m th => ∃ won, Won i f x active won ∧
        Binned view i all m₀ (won.foldl (advance i f) x) m ∧
          ∀ t ∈ active, ∃ th₀, T t th₀ ∧
            th t = th₀.bind old (if t ∈ won then x (i t) else won.foldl (advance i f) x (i t)) := by
  let learnt (won : List Nat) (t : Nat) : Value := if t ∈ won then x (i t) else won.foldl (advance i f) x (i t)
  let I (before : List Nat) : Scene := fun m th => ∃ won, Won i f x before won ∧
    Binned view i all m₀ (won.foldl (advance i f) x) m ∧ ∀ t ∈ active, Turned old T before (learnt won) t (th t)
  -- The invariant: of the threads so far, some have won, and their updates are folded.
  have hturns : Brings active (I []) (active.forM fun t => Run.compareSwap ctx t old view index expected desired)
    (I active) := by
    refine forM I fun before t after e => turn fun s hs => ?_
    obtain ⟨won, hwon, hm, hth⟩ := hs
    have ht : t ∈ active := e ▸ List.mem_append_right before List.mem_cons_self
    have hnot := not_mem_of_nodup hnd e
    have hcurrent := hm.holds t (hall t ht)
    have hcan := hT t ht (s.thread t) ((turned_of_not_mem hnot).mp (hth t ht))
    have hview := hcurrent.reaches.space_ne
    have hswap := Run.compareSwap_eq hcan hcurrent
    by_cases hnow : won.foldl (advance i f) x (i t) = x (i t)
    · rw [if_pos hnow] at hswap
      refine ⟨_, _, _, threads_modifyBuffer hview _, hswap, won ++ [t], hwon.win hnow, ?_, ?_⟩
      · rw [List.foldl_append, store_modifyBuffer hview, List.foldl_cons, List.foldl_nil, advance, hnow]
        exact hm.put (hall t ht) hcan.types.2
      · have := turned_next (w := learnt (won ++ [t])) hth hnot ht fun t' ht' => ?_
        · rwa [show learnt (won ++ [t]) t = won.foldl (advance i f) x (i t) by simp [learnt, hnow]] at this
        · have hne := ne_of_mem_of_not_mem ht' hnot
          by_cases hmem : t' ∈ won
          · simp [learnt, hmem]
          · have hlost : i t' ≠ i t := fun e' => hwon.lost t' ht' hmem (by rw [e', hnow])
            simp [learnt, hmem, hne, advance_of_ne hlost]
    · rw [if_neg hnow] at hswap
      refine ⟨_, _, _, rfl, hswap, won, hwon.lose hnow, hm, ?_⟩
      have := turned_next (w := learnt won) hth hnot ht fun _ _ => rfl
      rwa [show learnt won t = won.foldl (advance i f) x (i t) from if_neg fun h =>
        hnot (hwon.sublist.subset h)] at this
  rw [exec_compareSwap]
  refine hturns.imp (fun m th hm => ⟨[], .start, hm.1, fun t ht => ?_⟩) fun m th hm => ?_
  · exact (turned_of_not_mem List.not_mem_nil).mpr (hm.2 t ht)
  · obtain ⟨won, hwon, hm, hth⟩ := hm
    refine ⟨won, hwon, hm, fun t ht => ?_⟩
    have := hth t ht
    rwa [Turned, if_pos ht] at this

end Run.Brings
end SegKernel
