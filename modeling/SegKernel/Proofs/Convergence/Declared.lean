import SegKernel.Proofs.Convergence.Hoisted
import SegKernel.Proofs.Convergence.Kernels
import SegKernel.Proofs.Names.Declared

/-! Code that faults before it meets a barrier. The sizes of a launch are computed from host variables,
    all of which are evaluated, so a kernel in which one of these has no value gets no further than
    to the first size that needs it. -/

namespace SegKernel
open Run

/-! ### Expressions that evaluate all their variables -/

namespace Exp

/-- An expression without connectives and selections, which evaluates all its operands. -/
inductive Strict : Exp → Prop
  | var (name : Ident) : Strict (.var name)
  | const (v : Value) : Strict (.const v)
  | binary {op : BinaryOp} {x y : Exp} (h : op ≠ .logAnd ∧ op ≠ .logOr) (hx : Strict x) (hy : Strict y) :
    Strict (.binary op x y)

namespace Strict
variable {x y : Exp}

theorem apply {op : BinaryOp} (h : op ≠ .logAnd ∧ op ≠ .logOr) (hx : Strict x) (hy : Strict y) :
    Strict (.apply op x y) := by
  unfold Exp.apply
  split
  · exact .const _
  · unfold unitOperand
    split <;> (repeat' split) <;> first | exact hx | exact hy | exact .binary h hx hy

theorem add (hx : Strict x) (hy : Strict y) : Strict (x + y) := apply (by simp) hx hy
theorem sub (hx : Strict x) (hy : Strict y) : Strict (x - y) := apply (by simp) hx hy
theorem mul (hx : Strict x) (hy : Strict y) : Strict (x * y) := apply (by simp) hx hy
theorem div (hx : Strict x) (hy : Strict y) : Strict (x / y) := apply (by simp) hx hy

theorem divUp (hx : Strict x) (hy : Strict y) : Strict (x.divUp y) := div (sub (add hx hy) (.const _)) hy

theorem product {factors : List Exp} (h : ∀ x ∈ factors, Strict x) : Strict (.product factors) := by
  have fold : ∀ (l : List Exp) (x : Exp), Strict x → (∀ y ∈ l, Strict y) → Strict (l.foldl (· * ·) x) := by
    intro l
    induction l with
    | nil => exact fun _ hx _ => hx
    | cons y ys ih =>
      exact fun x hx h => ih _ (mul hx (h y List.mem_cons_self)) fun z hz => h z (List.mem_cons_of_mem y hz)
  exact fold factors _ (.const _) h

theorem toExp (o : Operand) : Strict o.toExp := by
  cases o with
  | const v => exact .const v
  | var name => exact .var name

/-- An expression that evaluates all its variables needs a value for each. -/
theorem eval_error {scope : Scope} {name : Ident} (hscope : scope name = none) :
    ∀ {x : Exp}, Strict x → name ∈ x.occurrences → ∃ fault, x.eval scope = .error fault := by
  intro x hx
  induction hx with
  | var name' =>
    intro h
    obtain rfl := List.mem_singleton.mp h
    exact ⟨_, by rw [eval, hscope]⟩
  | const v => simp [occurrences]
  | @binary op x y hop _ _ ihx ihy =>
    intro h
    cases hx : x.eval scope with
    | error fault =>
      refine ⟨fault, ?_⟩
      unfold eval
      rw [hx]
    | ok v =>
      have hy : name ∈ y.occurrences := by
        rcases List.mem_append.mp h with h | h
        · obtain ⟨fault, hfault⟩ := ihx h
          cases hx.symm.trans hfault
        · exact h
      obtain ⟨fault, hfault⟩ := ihy hy
      refine ⟨fault, ?_⟩
      obtain ⟨h₁, h₂⟩ := hop
      cases op <;> first | exact absurd rfl h₁ | exact absurd rfl h₂ | simp only [eval, hx, hfault]

end Strict
end Exp

/-! ### Code that halts -/

/-- The one name, as a scalar. -/
def Common.only (name : Ident) : Common where
  scalar x := x = name
  array _ := False
  scalar_of_array _ h := h.elim

/-- No thread has a value for a name. -/
def Absent (name : Ident) (ctx : GroupContext) (order : List Nat) (s : GroupState) : Prop :=
  ctx.captured[name]? = none ∧ ∀ t ∈ order, (s.thread t).scalars[name]? = none

theorem Absent.keeps {name : Ident} {ctx : GroupContext} {order : List Nat} {s s' : GroupState}
    (h : Absent name ctx order s) (k : Keeps (Common.only name) s s') : Absent name ctx order s' :=
  ⟨h.1, fun t ht => by rw [k.scalars t name rfl, h.2 t ht]⟩

/-- Where no thread has a value for a name, the code faults, and meets no barrier before. -/
def Halts (name : Ident) (stmt : Stmt) : Prop :=
  ∀ (ctx : GroupContext) (order : List Nat) (s : GroupState), order ≠ [] → Absent name ctx order s →
    trace maskAt ctx stmt.dropShared order s = [] ∧ ∀ s', exec ctx stmt.dropShared order s ≠ .ok () s'

namespace Halts
variable {name : Ident}

theorem declareInit {x : Ident} {type : ScalarType} {e : Exp} (hx : x ≠ name) (he : e.Strict)
    (hname : name ∈ e.occurrences) : Halts name (.declareInit x type e) := by
  intro ctx order s hne hs
  have drops : (Stmt.declareInit x type e).dropShared = .seq [.declare x type false, .set x e] := by
    simp [Stmt.declareInit, Stmt.dropShared, Stmt.dropSharedAll, Stmt.block, Stmt.pieces]
  have notEmpty : order.isEmpty = false := by simpa using hne
  rw [drops]
  have declares : Quiet (Common.only name) (.declare x type false) := .declare hx
  have sets : Quiet (Common.only name) (.set x e) := .set hx
  refine ⟨?_, fun s' hs' => ?_⟩
  · have all : Quiet (Common.only name) (.seq [.declare x type false, .set x e]) :=
      .seq (by simpa using ⟨declares, sets⟩)
    exact all.masks
  · rw [exec_seq_eq, execAll_cons, execAll_singleton] at hs'
    obtain ⟨_, s₁, h₁, h₂⟩ := bind_eq_ok.mp hs'
    have hs₁ := hs.keeps (declares.keeps h₁)
    unfold exec at h₂
    rw [notEmpty, if_neg Bool.false_ne_true] at h₂
    obtain ⟨t, ts, rfl⟩ := List.exists_cons_of_ne_nil hne
    obtain ⟨_, s₂, h₂, -⟩ := bind_eq_ok.mp h₂
    obtain ⟨v, hv, -⟩ := set_eq_ok.mp h₂
    have habsent : (s₁.thread t).scope ctx.captured name = none := by
      rw [Thread.scope, hs₁.2 t List.mem_cons_self, hs₁.1]
    obtain ⟨fault, hfault⟩ := he.eval_error habsent hname
    rw [GroupState.scope_eq, hfault] at hv
    cases hv

/-- Code halts if a part of it does after quiet code. -/
theorem block {stmts : List Stmt} (before : List Stmt) {stmt : Stmt} (after : List Stmt)
    (hstmts : stmts = before ++ stmt :: after) (hbefore : ∀ s ∈ before, Quiet (Common.only name) s)
    (h : Halts name stmt) : Halts name (.block stmts) := by
  subst hstmts
  intro ctx order s hne hs
  have quiet : Quiet (Common.only name) (.seq (before.map Stmt.dropShared)) := .seq fun t ht => by
    obtain ⟨s, hs, rfl⟩ := List.mem_map.mp ht
    exact (hbefore s hs).dropShared
  have masks : ∀ s, traceAll maskAt ctx (before.map Stmt.dropShared) order s = [] := fun s => by
    rw [← trace_seq]
    exact quiet.masks
  have keeps : ∀ s', execAll ctx (before.map Stmt.dropShared) order s = .ok () s' → Absent name ctx order s' := by
    intro s' hs'
    rw [← exec_seq_eq] at hs'
    exact hs.keeps (quiet.keeps hs')
  rw [(dropShared_block maskAt ctx order _).1, (dropShared_block maskAt ctx order _).2, List.map_append, List.map_cons]
  -- What stands in front has no masks and keeps the name absent; then the part faults, and nothing after it runs.
  constructor
  · rw [traceAll_append, masks, List.nil_append, List.eq_nil_iff_forall_not_mem]
    intro m hm
    obtain ⟨_, s₁, h₁, hm⟩ := mem_after.mp hm
    obtain ⟨hmasks, hfault⟩ := h ctx order s₁ hne (keeps s₁ h₁)
    rw [traceAll_cons, hmasks, List.nil_append] at hm
    obtain ⟨_, s₂, h₂, -⟩ := mem_after.mp hm
    exact hfault s₂ h₂
  · intro s' hs'
    rw [execAll_append, execAll_cons] at hs'
    obtain ⟨_, s₁, h₁, h₂⟩ := bind_eq_ok.mp hs'
    obtain ⟨_, s₂, h₂, -⟩ := bind_eq_ok.mp h₂
    exact (h ctx order s₁ hne (keeps s₁ h₁)).2 s₂ h₂

theorem wrap {nest : Nest} {body : Stmt} (before : List Stmt) {stmt : Stmt} (after : List Stmt)
    (hsetup : nest.setup = before ++ stmt :: after) (hbefore : ∀ s ∈ before, Quiet (Common.only name) s)
    (h : Halts name stmt) : Halts name (nest.wrap body) := by
  unfold Nest.wrap
  split <;> rw [hsetup, List.append_assoc, List.cons_append] <;> exact block _ _ rfl hbefore h

/-- A kernel whose body halts meets no barrier. -/
theorem masks_hoist {stmt hoisted : Stmt} (h : Halts name stmt) (hh : stmt.hoist = .ok hoisted) {ctx : GroupContext}
    {order : List Nat} {s : GroupState} (hne : order ≠ []) (hs : Absent name ctx order s) :
    trace maskAt ctx hoisted order s = [] := by
  unfold Stmt.hoist at hh
  dsimp only at hh
  split at hh
  · cases hh
  · obtain rfl := Except.ok.inj hh
    have quiet : Quiet (Common.only name) (.seq (stmt.sharedArrays.map SharedArray.code)) := .seq fun t ht => by
      obtain ⟨a, -, rfl⟩ := List.mem_map.mp ht
      exact .declareArray fun _ => id
    have masks : traceAll maskAt ctx (stmt.sharedArrays.map SharedArray.code) order s = [] := by
      rw [← trace_seq]
      exact quiet.masks
    rw [trace_block, traceAll_append, masks, List.nil_append, List.eq_nil_iff_forall_not_mem]
    intro m hm
    obtain ⟨_, s₁, h₁, hm⟩ := mem_after.mp hm
    rw [← exec_seq_eq] at h₁
    rw [traceAll_singleton, (h ctx order s₁ hne (hs.keeps (quiet.keeps h₁))).1] at hm
    simp at hm

end Halts

/-! ## What kernels declare

A name that a kernel declares does not come from the host, so until it is declared it has no value. -/
open Lowering

/-- The code of a statement that a thread runs declares what the statement binds. -/
theorem code_declares {setting : Setting} {n : Nat} (scope : BodyScope) (stm : BodyStm) :
    Yields setting n (stm.code BodyStm.noNested scope) fun (code, _) => ∀ name ∈ stm.binds, name ∈ code.declared := by
  cases stm with
  | compute x type value =>
    exact .pure fun name h => Stmt.mem_declared_declareInit.mpr (List.mem_singleton.mp h)
  | index x type array is =>
    have anyArray : Yields setting n (scope.array array) fun _ => True := by
      refine Yields.bind (P := fun _ => True) ?_ fun _ _ => Yields.require.imp fun _ _ => trivial
      unfold BodyScope.array?
      split
      · exact .pure trivial
      · exact Yields.globalArray?.imp fun _ _ => trivial
    refine Yields.bind (P := fun code => x ∈ code.declared) ?_ fun code hcode => .pure fun name h => ?_
    · refine anyArray.bind fun a _ => Yields.check.bind fun _ _ => Yields.check.bind fun _ _ => ?_
      refine Yields.read.bind fun s _ => .pure (Stmt.mem_declared_block.mpr ⟨_, List.mem_cons_self, ?_⟩)
      simp [Stmt.declared]
    · obtain rfl := List.mem_singleton.mp h
      exact hcode
  | arrayLit x type elems =>
    refine .pure fun name h => ?_
    obtain rfl := List.mem_singleton.mp h
    exact Stmt.mem_declared_block.mpr ⟨_, List.mem_cons_self, by simp [Stmt.declared]⟩
  | nested pattern op => exact .defect

theorem codeAll_declares {setting : Setting} {n : Nat} : ∀ (scope : BodyScope) (stms : List BodyStm),
    Yields setting n (BodyStm.codeAll BodyStm.noNested scope stms) fun (code, _) =>
      ∀ name ∈ stms.flatMap BodyStm.binds, ∃ s ∈ code, name ∈ s.declared
  | _, [] => .pure (by simp)
  | scope, stm :: stms => by
    refine (code_declares scope stm).bind fun (first, mid) hfirst => ?_
    refine (codeAll_declares mid stms).bind fun (rest, inner) hrest => .pure fun name h => ?_
    rw [List.flatMap_cons, List.mem_append] at h
    rcases h with h | h
    · exact ⟨first, List.mem_cons_self, hfirst name h⟩
    · obtain ⟨s, hs, hname⟩ := hrest name h
      exact ⟨s, List.mem_cons_of_mem _ hs, hname⟩

/-- The body that each thread runs on its own declares all that its statements bind. -/
theorem threadBody_declares {setting : Setting} {n : Nat} (scope : BodyScope) (stms : List BodyStm) :
    Yields setting n (BodyStm.threadBody scope stms) fun (code, _) =>
      ∀ name ∈ stms.flatMap BodyStm.binds, name ∈ code.declared :=
  (codeAll_declares scope stms).bind fun _ h => .pure fun name hname => Stmt.mem_declared_block.mpr (h name hname)

/-! ### Names that do not come from the host -/

theorem capture_of_ne {host : Scope} {global : Memory} {env env' : Table Value} {c : Capture} {name : Ident}
    (h : Device.capture host global env c = .ok env') (hc : c.name ≠ name) : env'[name]? = env[name]? := by
  cases c with
  | scalar x type =>
    unfold Device.capture at h
    dsimp only at h
    split at h
    · split at h
      · cases h
        exact Table.getElem?_insert_of_ne _ _ fun e => hc e
      · cases h
    · cases h
  | memory x =>
    unfold Device.capture at h
    dsimp only at h
    split at h
    · cases h
      rfl
    · cases h
  | constant x v =>
    cases h
    exact Table.getElem?_insert_of_ne _ _ fun e => hc e

theorem captured_none {host : Scope} {global : Memory} {name : Ident} : ∀ {cs : List Capture} {env env' : Table Value},
    cs.foldlM (Device.capture host global) env = .ok env' → (∀ c ∈ cs, c.name ≠ name) → env[name]? = none →
    env'[name]? = none
  | [], env, env', h, _, henv => by
    cases h
    exact henv
  | c :: cs, env, env', h, hc, henv => by
    rw [List.foldlM_cons] at h
    cases hfirst : Device.capture host global env c with
    | error fault =>
      rw [hfirst] at h
      cases h
    | ok mid =>
      rw [hfirst] at h
      exact captured_none h (fun c' h' => hc c' (List.mem_cons_of_mem c h'))
        ((capture_of_ne hfirst (hc c List.mem_cons_self)).trans henv)

theorem context_captured {d : Device} {host : Scope} {global : Memory} {k : Kernel} {ctx : GroupContext}
    (h : d.context host global k = .ok ctx) : k.captures.foldlM (Device.capture host global) {} = .ok ctx.captured := by
  unfold Device.context at h
  cases hc : k.captures.foldlM (Device.capture host global) {} with
  | error fault =>
    rw [hc] at h
    cases h
  | ok captured =>
    rw [hc] at h
    cases hn : k.numGroups.evalInt host with
    | error fault =>
      rw [hn] at h
      cases h
    | ok numGroups =>
      rw [hn] at h
      cases hg : k.groupSize.evalInt host with
      | error fault =>
        rw [hg] at h
        cases h
      | ok groupSize =>
        rw [hg] at h
        by_cases hsize : numGroups.toInt < 0 ∨ groupSize.toInt ≤ 0
        · simp only [Bind.bind, Except.bind, if_pos hsize] at h
          cases h
        · simp only [Bind.bind, Except.bind, if_neg hsize] at h
          cases h
          rfl

/-- A kernel converges if it halts for want of a name that it declares only later. -/
theorem Kernel.converges_of_halts {k : Kernel} {stmt : Stmt} {name : Ident} (h : Halts name stmt)
    (hbody : stmt.hoist = .ok k.body) (hdeclared : name ∈ stmt.declared)
    (hcaptures : ∀ c ∈ k.captures, c.name ∉ k.body.declared) : k.Converges := by
  intro d host global ctx hctx g schedule start hstart mask hmask
  rcases eq_or_ne (schedule.order ctx.groupSize.toInt.toNat) [] with hnil | hne
  · rw [hnil, Run.barrierMasks, Run.trace_nil] at hmask
    simp at hmask
  · have hcaptured := context_captured hctx
    have absent : Absent name { ctx with group := Int64.ofNat g } (schedule.order ctx.groupSize.toInt.toNat) start := by
      refine ⟨captured_none hcaptured (fun c hc e => ?_) (by simp), fun t ht => ?_⟩
      · exact hcaptures c hc (e ▸ (Stmt.declared_hoist hbody).mem_iff.mpr hdeclared)
      · rw [GroupState.thread_of_replicate hstart]
        simp
    rw [Run.barrierMasks, h.masks_hoist hbody hne absent] at hmask
    simp at hmask

end SegKernel
