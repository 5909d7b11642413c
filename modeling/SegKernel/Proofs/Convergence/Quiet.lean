import Mathlib.Logic.Basic
import SegKernel.Proofs.Execution.Questions
import SegKernel.Proofs.Execution.Threads
import SegKernel.Proofs.Execution.Traces

/-! Quiet code. It may run for any part of a group: it has no barrier, and it leaves all names of a set
    as they are in all threads. -/

namespace SegKernel

/-- Names of which all threads of a group are to have the same: scalars, and some of them as arrays too. -/
structure Common where
  scalar : Ident → Prop
  array : Ident → Prop
  scalar_of_array : ∀ x, array x → scalar x

namespace Common

instance : CoeFun Common fun _ => Ident → Prop := ⟨scalar⟩

/-- All names of `U` are names of `V`. -/
protected structure Le (U V : Common) : Prop where
  scalar : ∀ x, U x → V x
  array : ∀ x, U.array x → V.array x

instance : LE Common := ⟨Common.Le⟩

theorem not_array {U : Common} {x : Ident} (h : ¬U x) : ¬U.array x := fun hx => h (U.scalar_of_array x hx)

end Common

/-- Code without barriers that changes neither scalars nor arrays of a thread whose names are in `U`. -/
inductive Quiet (U : Common) : Stmt → Prop
  | skip : Quiet U .skip
  | seq {stmts : List Stmt} (all : ∀ s ∈ stmts, Quiet U s) : Quiet U (.seq stmts)
  | comment {text : String} {body : Stmt} (h : Quiet U body) : Quiet U (.comment text body)
  | declare {name : Ident} {type : ScalarType} {volatile : Bool} (h : ¬U name) : Quiet U (.declare name type volatile)
  | declareArray {name : Ident} {type : ScalarType} {length : Exp} {space : Space}
    (h : space = .thread → ¬U.array name) :
    Quiet U (.declareArray name type length space)
  | set {name : Ident} {x : Exp} (h : ¬U name) : Quiet U (.set name x)
  | read {dest : Ident} {view : View} {index : Exp} (h : ¬U dest) : Quiet U (.read dest view index)
  | write {view : View} {index x : Exp} (h : view.space = .thread → ¬U.array view.array) : Quiet U (.write view index x)
  | branch {c : Exp} {ifTrue ifFalse : Stmt} (h₁ : Quiet U ifTrue) (h₂ : Quiet U ifFalse) :
    Quiet U (.branch c ifTrue ifFalse)
  | loop {iter : Ident} {bound : Exp} {body : Stmt} (h : ¬U iter) (hbody : Quiet U body) :
    Quiet U (.loop iter bound body)
  | repeatWhile {c : Exp} {body : Stmt} (h : Quiet U body) : Quiet U (.repeatWhile c body)
  | query {which : Query} {dest : Ident} (h : ¬U dest) : Quiet U (.query which dest)
  | memFence {fence : Fence} : Quiet U (.memFence fence)
  | update {op : AtomicOp} {old : Ident} {view : View} {index x : Exp} (h : ¬U old)
    (hview : view.space = .thread → ¬U.array view.array) : Quiet U (.update op old view index x)
  | compareSwap {old : Ident} {view : View} {index expected desired : Exp} (h : ¬U old)
    (hview : view.space = .thread → ¬U.array view.array) : Quiet U (.compareSwap old view index expected desired)

/-- All threads have in `b` what they had in `a` under the names of `U`. -/
structure Keeps (U : Common) (a b : GroupState) : Prop where
  size : b.threads.size = a.threads.size
  scalars : ∀ t x, U x → (b.thread t).scalars[x]? = (a.thread t).scalars[x]?
  arrays : ∀ t x, U.array x → (b.thread t).arrays[x]? = (a.thread t).arrays[x]?

namespace Keeps
open GroupState
variable {U : Common} {a b c : GroupState}

theorem refl (a : GroupState) : Keeps U a a := ⟨rfl, fun _ _ _ => rfl, fun _ _ _ => rfl⟩

theorem trans (h₁ : Keeps U a b) (h₂ : Keeps U b c) : Keeps U a c :=
  ⟨h₂.size.trans h₁.size, fun t x hx => (h₂.scalars t x hx).trans (h₁.scalars t x hx),
    fun t x hx => (h₂.arrays t x hx).trans (h₁.arrays t x hx)⟩

theorem of_threads (h : b.threads = a.threads) : Keeps U a b :=
  ⟨by rw [h], fun t _ _ => by rw [thread_of_threads h], fun t _ _ => by rw [thread_of_threads h]⟩

/-- A change of one thread that leaves the names of `U`. -/
theorem modifyThread {t : Nat} {f : Thread → Thread}
    (hs : ∀ th : Thread, ∀ x, U x → (f th).scalars[x]? = th.scalars[x]?)
    (ha : ∀ th : Thread, ∀ x, U.array x → (f th).arrays[x]? = th.arrays[x]?) : Keeps U a (a.modifyThread t f) := by
  refine ⟨size_modifyThread a t f, fun t' x hx => ?_, fun t' x hx => ?_⟩ <;> rw [thread_modifyThread]
  · split
    · rename_i h
      rw [hs _ x hx, h.1]
    · rfl
  · split
    · rename_i h
      rw [ha _ x hx, h.1]
    · rfl

theorem bind {t : Nat} {name : Ident} {v : Value} (h : ¬U name) : Keeps U a (a.bind t name v) := by
  refine modifyThread (fun th x hx => ?_) (fun _ _ _ => rfl)
  exact Table.getElem?_insert_of_ne _ _ fun e => h (e ▸ hx)

theorem modifyBuffer {t : Nat} {view : View} {f : Buffer → Buffer} (h : view.space = .thread → ¬U.array view.array) :
    Keeps U a (a.modifyBuffer t view f) := by
  unfold GroupState.modifyBuffer
  split
  · exact of_threads rfl
  · exact of_threads rfl
  · rename_i hspace
    refine modifyThread (fun _ _ _ => rfl) (fun th x hx => ?_)
    exact Table.getElem?_modify_of_ne _ _ fun e => h hspace (e ▸ hx)

theorem declareOwn {t : Nat} {name : Ident} {type : ScalarType} {n : Nat} (h : ¬U.array name) :
    Keeps U a (a.declareOwn t name type n) := by
  refine modifyThread (fun _ _ _ => rfl) (fun th x hx => ?_)
  exact Table.getElem?_insert_of_ne _ _ fun e => h (e ▸ hx)

end Keeps

namespace Quiet
open Run GroupState
variable {U : Common} {ctx : GroupContext} {s s' : GroupState}

theorem whileKeeps {c : Exp} {body : Stmt} {active : List Nat}
    (ih : ∀ {active : List Nat} {s s' : GroupState}, exec ctx body active s = .ok () s' → Keeps U s s')
    (h : whileLive (loopTest ctx c) (fun live => exec ctx body live) ctx.loopLimit active s = .ok () s') :
    Keeps U s s' := by
  refine whileLive_ok (P := fun a => Keeps U s a) ?_ ?_ (Keeps.refl s) h
  · intro live a live' b hP htest
    exact (loopTest_ok htest).1 ▸ hP
  · exact fun live a b hP hbody => hP.trans (ih hbody)

/-- Quiet code keeps the names of `U`, whichever threads run it. -/
theorem keeps {stmt : Stmt} (q : Quiet U stmt) :
    ∀ {active : List Nat} {s s' : GroupState}, exec ctx stmt active s = .ok () s' → Keeps U s s' := by
  -- A loop keeps the names in each round, so it keeps them.
  induction q with
  | skip =>
    intro active s s' h
    rw [exec_skip] at h
    obtain ⟨-, rfl⟩ := pure_eq_ok.mp h
    exact Keeps.refl _
  | seq _ ih =>
    intro active s s' h
    rw [exec_seq_eq] at h
    exact execAll_rel Keeps.refl Keeps.trans (fun stmt hs a b hab => ih stmt hs hab) h
  | comment _ ih =>
    intro active s s' h
    exact ih (exec_comment _ _ ▸ h)
  | @branch c ifTrue ifFalse _ _ ih₁ ih₂ =>
    intro active s s' h
    rcases eq_or_ne active [] with rfl | hne
    · rw [exec_nil] at h
      obtain ⟨-, rfl⟩ := pure_eq_ok.mp h
      exact Keeps.refl _
    · obtain ⟨answers, s₁, -, h₁, h₂⟩ := exec_branch_ok hne h
      exact (ih₁ h₁).trans (ih₂ h₂)
  | @loop iter bound body hiter _ ih =>
    intro active s s' h
    rcases eq_or_ne active [] with rfl | hne
    · rw [exec_nil] at h
      obtain ⟨-, rfl⟩ := pure_eq_ok.mp h
      exact Keeps.refl _
    · obtain ⟨bounds, -, hrounds⟩ := exec_loop_ok hne h
      refine countUp_ok (P := fun _ a => Keeps U s a) ?_ (Keeps.refl s) hrounds
      intro k a b hP hstep
      obtain ⟨_, a', hbind, hbody⟩ := bind_eq_ok.mp hstep
      refine hP.trans (Keeps.trans ?_ (ih hbody))
      refine forM_rel Keeps.refl Keeps.trans (fun t _ c d hcd => ?_) hbind
      obtain rfl := modify_eq_ok.mp hcd
      exact Keeps.bind hiter
  | repeatWhile _ ih =>
    intro active s s' h
    rcases eq_or_ne active [] with rfl | hne
    · rw [exec_nil] at h
      obtain ⟨-, rfl⟩ := pure_eq_ok.mp h
      exact Keeps.refl _
    · rw [exec_repeatWhile hne] at h
      exact whileKeeps ih h
  | memFence =>
    intro active s s' h
    unfold exec at h
    split at h <;> exact (pure_eq_ok.mp h).2 ▸ Keeps.refl _
  | declare hname =>
    intro active s s' h
    unfold exec at h
    split at h
    · exact (pure_eq_ok.mp h).2 ▸ Keeps.refl _
    · refine forM_rel Keeps.refl Keeps.trans (fun t _ a b hab => ?_) h
      obtain rfl := modify_eq_ok.mp hab
      exact Keeps.bind hname
  | declareArray hname =>
    intro active s s' h
    unfold exec at h
    split at h
    · exact (pure_eq_ok.mp h).2 ▸ Keeps.refl _
    · refine forM_rel Keeps.refl Keeps.trans (fun t _ a b hab => ?_) h
      obtain ⟨i, n, -, -, ⟨-, rfl⟩ | ⟨hspace, rfl⟩⟩ := declareArray_ok hab
      · exact Keeps.of_threads (declareShared_threads a _ _ n)
      · exact Keeps.declareOwn (hname hspace)
  | set hname =>
    intro active s s' h
    unfold exec at h
    split at h
    · exact (pure_eq_ok.mp h).2 ▸ Keeps.refl _
    · refine forM_rel Keeps.refl Keeps.trans (fun t _ a b hab => ?_) h
      obtain ⟨v, -, -, rfl⟩ := set_eq_ok.mp hab
      exact Keeps.bind hname
  | read hdest =>
    intro active s s' h
    unfold exec at h
    split at h
    · exact (pure_eq_ok.mp h).2 ▸ Keeps.refl _
    · refine forM_rel Keeps.refl Keeps.trans (fun t _ a b hab => ?_) h
      obtain ⟨i, v, races, -, -, rfl⟩ := read_ok hab
      exact Keeps.trans (b := { a with races }) (Keeps.of_threads rfl) (Keeps.bind hdest)
  | write hview =>
    intro active s s' h
    unfold exec at h
    split at h
    · exact (pure_eq_ok.mp h).2 ▸ Keeps.refl _
    · refine forM_rel Keeps.refl Keeps.trans (fun t _ a b hab => ?_) h
      obtain ⟨i, v, p, races, -, -, -, rfl⟩ := write_ok hab
      exact Keeps.trans (Keeps.modifyBuffer hview) (Keeps.of_threads rfl)
  | query hdest =>
    intro active s s' h
    unfold exec at h
    split at h
    · exact (pure_eq_ok.mp h).2 ▸ Keeps.refl _
    · refine forM_rel Keeps.refl Keeps.trans (fun t _ a b hab => ?_) h
      obtain rfl := modify_eq_ok.mp hab
      exact Keeps.bind hdest
  | update hold hview =>
    intro active s s' h
    unfold exec at h
    split at h
    · exact (pure_eq_ok.mp h).2 ▸ Keeps.refl _
    · refine forM_rel Keeps.refl Keeps.trans (fun t _ a b hab => ?_) h
      obtain ⟨p, v, current, rfl⟩ := update_ok hab
      exact (Keeps.modifyBuffer hview).trans ((Keeps.bind hold).trans (Keeps.of_threads rfl))
  | compareSwap hold hview =>
    intro active s s' h
    unfold exec at h
    split at h
    · exact (pure_eq_ok.mp h).2 ▸ Keeps.refl _
    · refine forM_rel Keeps.refl Keeps.trans (fun t _ a b hab => ?_) h
      obtain ⟨current, rfl | ⟨p, v, rfl⟩⟩ := compareSwap_ok hab
      · exact (Keeps.bind hold).trans (Keeps.of_threads rfl)
      · exact (Keeps.modifyBuffer hview).trans ((Keeps.bind hold).trans (Keeps.of_threads rfl))

/-- Quiet code meets no barrier. -/
theorem masks {stmt : Stmt} (q : Quiet U stmt) :
    ∀ {active : List Nat} {s : GroupState}, trace maskAt ctx stmt active s = [] := by
  -- On why the code is quiet: it is put together of steps none of which is a barrier.
  induction q with
  | @seq stmts all ih =>
    intro active s
    rw [trace_seq]
    clear all
    induction stmts generalizing s with
    | nil => rw [traceAll_nil]
    | cons stmt stmts ihs =>
      have rest : ∀ s, traceAll maskAt ctx stmts active s = [] := fun s =>
        ihs (fun s hs => ih s (List.mem_cons_of_mem stmt hs))
      simp only [traceAll_cons, ih stmt List.mem_cons_self, rest, after_nil, List.append_nil]
  | comment _ ih =>
    intro active s
    rw [trace_comment, ih]
  | branch _ _ ih₁ ih₂ =>
    intro active s
    unfold trace
    simp only [ih₁, ih₂, after_nil, List.append_nil, ite_self]
  | loop _ _ ih =>
    intro active s
    unfold trace
    simp only [ih, after_nil, traceUp_nil, ite_self]
  | repeatWhile _ ih =>
    intro active s
    unfold trace
    simp only [ih, traceWhile_nil, ite_self]
  | _ =>
    intro active s
    unfold trace
    split <;> rfl

end Quiet
end SegKernel
