import SegKernel.Proofs.Maps.Captures
import SegKernel.Proofs.Maps.Visits

/-! The kernel of a map: the code that threads run at their points, in the nest that leads them there. What
    this code declares belongs to the threads alone, and no variable of the host is declared again. -/

namespace SegKernel
open Lowering

/-! ### What code declares -/

/-- All that code declares belongs to single threads, and has names outside a set. -/
structure Stmt.Private (K : Ident → Prop) (s : Stmt) : Prop where
  shared : s.sharedArrays = []
  names : ∀ x ∈ s.declared, ¬K x

namespace Stmt
variable {K : Ident → Prop} {s : Stmt} {stmts : List Stmt}

namespace Private

theorem block (h : ∀ s ∈ stmts, s.Private K) : (Stmt.block stmts).Private K := by
  refine ⟨?_, fun x hx => ?_⟩
  · rw [sharedArrays_block, List.flatMap_eq_nil_iff]
    exact fun s hs => (h s hs).shared
  · obtain ⟨s, hs, hx⟩ := mem_declared_block.mp hx
    exact (h s hs).names x hx

theorem of_nil (hshared : s.sharedArrays = []) (hdeclared : s.declared = []) : s.Private K :=
  ⟨hshared, fun x hx => by simp [hdeclared] at hx⟩

theorem skip : Stmt.skip.Private K := of_nil rfl rfl

theorem branch {c : Exp} {ifTrue ifFalse : Stmt} (h : ifTrue.Private K) (h' : ifFalse.Private K) :
    (Stmt.branch c ifTrue ifFalse).Private K := by
  refine ⟨?_, fun x hx => ?_⟩
  · rw [sharedArrays, h.shared, h'.shared]
    rfl
  · rw [declared, List.mem_append] at hx
    exact hx.elim (h.names x) (h'.names x)

theorem when {c : Exp} (h : s.Private K) : (Stmt.when c s).Private K := by
  unfold Stmt.when
  split
  · exact h
  · exact skip
  · exact branch h skip

theorem loop {iter : Ident} {bound : Exp} (hiter : ¬K iter) (h : s.Private K) : (Stmt.loop iter bound s).Private K := by
  refine ⟨h.shared, fun x hx => ?_⟩
  rcases List.mem_cons.mp hx with rfl | hx
  · exact hiter
  · exact h.names x hx

theorem declare {name : Ident} {type : ScalarType} {volatile : Bool} (h : ¬K name) :
    (Stmt.declare name type volatile).Private K :=
  ⟨rfl, fun _ hx => List.mem_singleton.mp hx ▸ h⟩

theorem declareInit {name : Ident} {type : ScalarType} {x : Exp} (h : ¬K name) :
    (Stmt.declareInit name type x).Private K :=
  ⟨rfl, fun _ hx => mem_declared_declareInit.mp hx ▸ h⟩

theorem declareArray {name : Ident} {type : ScalarType} {length : Exp} (h : ¬K name) :
    (Stmt.declareArray name type length .thread).Private K :=
  ⟨rfl, fun _ hx => List.mem_singleton.mp hx ▸ h⟩

theorem read {dest : Ident} {view : View} {index : Exp} : (Stmt.read dest view index).Private K := of_nil rfl rfl

theorem write {view : View} {index x : Exp} : (Stmt.write view index x).Private K := of_nil rfl rfl

theorem ask {which : Query} {name : Ident} (h : ¬K name) : (Launch.ask which name).Private K :=
  ⟨rfl, fun x hx => by
    have : x = name := by simpa [Launch.ask, declared, declaredAll] using hx
    exact this ▸ h⟩

theorem innerIndices {flat : Exp} : ∀ {dims : List (Ident × Exp)}, (∀ d ∈ dims, ¬K d.1) →
    ∀ s ∈ Stmt.innerIndices flat dims, s.Private K
  | [], _, _, hs => by cases hs
  | d :: dims, h, s, hs => by
    rcases List.mem_cons.mp hs with rfl | hs
    · exact declareInit (h d List.mem_cons_self)
    · exact innerIndices (fun d' hd' => h d' (List.mem_cons_of_mem d hd')) s hs

theorem unflatten {dims : List (Ident × Exp)} {flat : Exp} (h : ∀ d ∈ dims, ¬K d.1) :
    (Stmt.unflatten dims flat).Private K := by
  unfold Stmt.unflatten
  split
  · exact skip
  · rename_i name extent dims
    refine block (List.forall_mem_cons.mpr ⟨declareInit (h _ List.mem_cons_self), ?_⟩)
    exact innerIndices fun d hd => h d (List.mem_cons_of_mem _ hd)

theorem wrap {n : Nest} (hsetup : ∀ s ∈ n.setup, s.Private K)
    (hcounted : ∀ iter bound, n.counted = some (iter, bound) → ¬K iter) (hbefore : ∀ s ∈ n.before, s.Private K)
    (hafter : ∀ s ∈ n.after, s.Private K) (h : s.Private K) : (n.wrap s).Private K := by
  have inner : ∀ t ∈ n.inner s, t.Private K := by
    intro t ht
    simp only [Nest.inner, List.mem_append, List.mem_singleton] at ht
    rcases ht with (ht | rfl) | ht
    · exact hbefore t ht
    · exact when h
    · exact hafter t ht
  unfold Nest.wrap
  split
  · rename_i iter bound hloop
    refine block (List.forall_mem_append.mpr ⟨hsetup, List.forall_mem_singleton.mpr ?_⟩)
    exact loop (hcounted iter bound hloop) (block inner)
  · exact block (List.forall_mem_append.mpr ⟨hsetup, inner⟩)

/-- Hoisting moves nothing. -/
theorem hoist_eq (h : s.Private K) : s.hoist = .ok (Stmt.block [s.dropShared]) := by
  unfold hoist
  rw [h.shared]
  rfl

end Private
end Stmt

/-! ### How code is made -/

namespace Lowering
variable {α β : Type} {setting : Setting} {f : Lowering α} {P : α → Prop}

/-- A computation that leaves the program as it is, and has a result in `P`. -/
def Makes (setting : Setting) (f : Lowering α) (P : α → Prop) : Prop :=
  ∀ σ a σ', f setting σ = .ok (a, σ') → P a ∧ σ'.program = σ.program

namespace Makes

/-- A computation that leaves the session. -/
theorem of_eq (h : ∀ σ a σ', f setting σ = .ok (a, σ') → P a ∧ σ' = σ) : Makes setting f P := by
  intro σ a σ' ha
  obtain ⟨hP, rfl⟩ := h σ a σ' ha
  exact ⟨hP, rfl⟩

theorem pure {a : α} (h : P a) : Makes setting (Pure.pure a) P := of_eq fun _ _ _ hb => by
  obtain ⟨rfl, rfl⟩ := pure_eq_ok.mp hb
  exact ⟨h, rfl⟩

theorem bind {g : α → Lowering β} {Q : β → Prop} (hf : Makes setting f P) (hg : ∀ a, P a → Makes setting (g a) Q) :
    Makes setting (f >>= g) Q := by
  intro σ b σ' hb
  obtain ⟨a, σ₁, ha, hb⟩ := bind_eq_ok.mp hb
  obtain ⟨hP, hfirst⟩ := hf σ a σ₁ ha
  obtain ⟨hQ, hsecond⟩ := hg a hP σ₁ b σ' hb
  exact ⟨hQ, hsecond.trans hfirst⟩

theorem check {c : Bool} {cause : Defect} {span : Option Span} : Makes setting (check c cause span) fun _ => True :=
  of_eq fun _ _ _ h => ⟨trivial, (check_eq_ok.mp h).2⟩

theorem require {a? : Option α} {cause : Defect} {span : Option Span} :
    Makes setting (require a? cause span) fun _ => True :=
  of_eq fun _ _ _ h => ⟨trivial, (require_eq_ok.mp h).2⟩

theorem throw {e : LowerError} : Makes setting (throw e : Lowering α) P := fun _ _ _ h => (throw_ne_ok.mp h).elim

theorem fresh {stem : String} (hstem : stem ∈ uniformStems ++ ownStems ++ arrayStems ++ kernelStems) :
    Makes setting (liftM (fresh stem)) Generated := by
  intro σ x σ' hx
  obtain ⟨rfl, rfl⟩ := lift_eq_ok.mp hx
  exact ⟨⟨stem, hstem, _, rfl⟩, rfl⟩

theorem markScatter : Makes setting markScatter fun _ => True := by
  intro σ u σ' h
  obtain rfl := modify_eq_ok.mp h
  exact ⟨trivial, rfl⟩

theorem mapM {g : α → Lowering β} {Q : β → Prop} {as : List α} (h : ∀ a ∈ as, Makes setting (g a) Q) :
    Makes setting (as.mapM g) fun bs => ∀ b ∈ bs, Q b := by
  induction as with
  | nil =>
    rw [List.mapM_nil]
    exact pure (by simp)
  | cons a as ih =>
    rw [List.mapM_cons]
    refine (h a List.mem_cons_self).bind fun b hb => ?_
    refine (ih fun a' ha' => h a' (List.mem_cons_of_mem a ha')).bind fun bs hbs => pure ?_
    exact List.forall_mem_cons.mpr ⟨hb, hbs⟩

theorem array {scope : BodyScope} {name : Ident} : Makes setting (scope.array name) fun _ => True :=
  bind (of_eq fun _ _ _ h => ⟨trivial, Solo.session_of_array? h⟩) fun _ _ => require

end Makes

/-! ### Bodies and results -/

variable {K : Ident → Prop} {scope : BodyScope}

theorem makes_readCode {name array : Ident} {type : ScalarType} {index : List Exp} (hname : ¬K name) :
    Makes setting (BodyStm.readCode scope name type array index) (·.Private K) := by
  refine Makes.array.bind fun a _ => Makes.check.bind fun _ _ => Makes.check.bind fun _ _ => ?_
  refine (Makes.of_eq fun _ _ _ h => read_eq_ok.mp h).bind fun s _ => .pure (.block ?_)
  refine List.forall_mem_cons.mpr ⟨.declare hname, List.forall_mem_singleton.mpr ?_⟩
  split
  · exact .when .read
  · exact .read

theorem private_arrayCode {name : Ident} {type : ScalarType} {elems : List Operand} (hname : ¬K name) :
    (BodyStm.arrayCode name type elems).1.Private K := by
  refine .block (List.forall_mem_cons.mpr ⟨.declareArray hname, fun s hs => ?_⟩)
  obtain ⟨i, hi, rfl⟩ := List.mem_mapIdx.mp hs
  exact .write

theorem makes_code {nestedCode : BodyStm.NestedCode} {stm : BodyStm} (hstm : ∀ x ∈ stm.binds, ¬K x)
    (hnested : ∀ pattern op, stm = .nested pattern op →
      Makes setting (nestedCode scope pattern op) fun r => r.1.Private K) :
    Makes setting (stm.code nestedCode scope) fun r => r.1.Private K := by
  cases stm with
  | compute name type value => exact .pure (.declareInit (hstm name (List.mem_singleton_self name)))
  | index name type array is =>
    exact (makes_readCode (hstm name (List.mem_singleton_self name))).bind fun code hcode => .pure hcode
  | arrayLit name type elems => exact .pure (private_arrayCode (hstm name (List.mem_singleton_self name)))
  | nested pattern op => exact hnested pattern op rfl

theorem makes_codeAll {nestedCode : BodyStm.NestedCode} {stms : List BodyStm} (h : ∀ stm ∈ stms, ∀ x ∈ stm.binds, ¬K x)
    (hnested : ∀ scope pattern op, .nested pattern op ∈ stms →
      Makes setting (nestedCode scope pattern op) fun r => r.1.Private K) :
    Makes setting (BodyStm.codeAll nestedCode scope stms) fun r => ∀ s ∈ r.1, s.Private K := by
  induction stms generalizing scope with
  | nil => exact .pure (by simp)
  | cons stm stms ih =>
    obtain ⟨hstm, hstms⟩ := List.forall_mem_cons.mp h
    refine (makes_code hstm fun pattern op e => hnested scope pattern op (e ▸ List.mem_cons_self)).bind
      fun first hfirst => ?_
    refine (ih hstms fun scope pattern op hmem => hnested scope pattern op (List.mem_cons_of_mem stm hmem)).bind
      fun rest hrest => .pure ?_
    exact List.forall_mem_cons.mpr ⟨hfirst, hrest⟩

theorem makes_threadBody {stms : List BodyStm} (h : ∀ stm ∈ stms, ∀ x ∈ stm.binds, ¬K x) :
    Makes setting (BodyStm.threadBody scope stms) fun r => r.1.Private K :=
  (makes_codeAll h fun _ _ _ _ => .throw).bind fun _ hcode => .pure (.block hcode)

theorem private_moveElement {source dest : ArrayInfo} {v : Ident} {i j : Exp} (hv : ¬K v) :
    (source.moveElement dest v i j).Private K :=
  .block (by simpa using ⟨.declare hv, .read, .write⟩)

variable (hK : ∀ x, K x → ¬Generated x)
include hK

theorem not_of_generated {x : Ident} (hx : Generated x) : ¬K x := fun h => hK x h hx

theorem makes_store {dest : ArrayInfo} {indices : List Exp} {value : Operand} :
    Makes setting (scope.store dest indices value) (·.Private K) := by
  refine Makes.check.bind fun _ _ => ?_
  split
  · refine (Makes.fresh (by decide)).bind fun j hj => (Makes.fresh (by decide)).bind fun v hv => .pure ?_
    exact .loop (not_of_generated hK hj) (private_moveElement (not_of_generated hK hv))
  · exact .pure .write

theorem makes_threadResult {space : IterationSpace} {name : Ident} {result : BodyResult} :
    Makes setting (scope.threadResult space name result) (·.Private K) := by
  refine Makes.array.bind fun dest _ => ?_
  cases result with
  | returns value => exact makes_store hK
  | tile => exact .throw
  | write shape writes =>
    refine Makes.markScatter.bind fun _ _ => ?_
    refine (Makes.mapM fun w _ => ?_).bind fun code hcode => .pure (.block hcode)
    exact Makes.check.bind fun _ _ => .pure (.when .write)
  | concat split perThread array =>
    refine Makes.array.bind fun source _ => ?_
    refine (Makes.fresh (by decide)).bind fun j hj => (Makes.fresh (by decide)).bind fun v hv => .pure ?_
    exact .loop (not_of_generated hK hj) (.when (private_moveElement (not_of_generated hK hv)))

theorem makes_threadResults {space : IterationSpace} {results : BoundResults} :
    Makes setting (scope.threadResults space results) (·.Private K) :=
  (Makes.mapM fun _ _ => makes_threadResult hK).bind fun _ hcode => .pure (.block hcode)

/-! ### Nests -/

theorem private_entry (numGroups groupSize : Exp) (n : Nat) :
    ((Launch.start numGroups groupSize).run n).1.2.Private K := by
  have asks : (Stmt.block [Launch.ask .globalId (numbered "global_tid" n),
    Launch.ask .localId (numbered "local_tid" (n + 1)),
      Launch.ask .groupId (numbered "group_id" (n + 2)),
        Launch.ask .lockstepWidth (numbered "wave_size" (n + 3))]).Private K := by
    refine .block ?_
    simp only [List.forall_mem_cons, List.not_mem_nil, false_imp_iff, implies_true, and_true]
    exact ⟨.ask (not_of_generated hK ⟨_, by decide, _, rfl⟩), .ask (not_of_generated hK ⟨_, by decide, _, rfl⟩),
      .ask (not_of_generated hK ⟨_, by decide, _, rfl⟩), .ask (not_of_generated hK ⟨_, by decide, _, rfl⟩)⟩
  exact ⟨asks.shared, asks.names⟩

omit hK in
theorem private_atPoint {nest : Nest} {coverage : Coverage} {s : IterationSpace} {flat : Exp} {body : Stmt}
    (hs : ∀ x ∈ s.names, ¬K x) (hsetup : ∀ s ∈ nest.setup, s.Private K)
    (hcounted : ∀ iter bound, nest.counted = some (iter, bound) → ¬K iter) (hbefore : ∀ s ∈ nest.before, s.Private K)
    (hafter : ∀ s ∈ nest.after, s.Private K) (hbody : body.Private K) :
    ((Launch.atPoint nest coverage s flat).wrap body).Private K := by
  refine .wrap hsetup hcounted (List.forall_mem_append.mpr ⟨hbefore, ?_⟩) hafter hbody
  refine List.forall_mem_cons.mpr
    ⟨.declareInit (hs _ List.mem_cons_self), List.forall_mem_singleton.mpr (.unflatten fun d hd => ?_)⟩
  obtain ⟨e, he, rfl⟩ := List.mem_map.mp hd
  exact hs _ (List.mem_cons_of_mem _ (List.mem_map_of_mem he))

theorem private_coverGroups {l : Launch} {coverage : Coverage} {required : Exp} {s : IterationSpace} {flat : Exp}
    {body : Stmt} (hs : ∀ x ∈ s.names, ¬K x) (hbody : body.Private K) (n : Nat) :
    ((Launch.atPoint ((l.coverGroups coverage required).run n).1.2 coverage s flat).wrap body).Private K := by
  have loops : ∀ coverage, ((Launch.atPoint {
      setup := [Launch.ask .groupId (numbered "phys_group_id" n), .declareInit (numbered "iterations" (n + 1)) .i64
        ((required - .var (numbered "phys_group_id" n)).divUp l.numGroups)]
      counted := some (numbered "i" (n + 2), .var (numbered "iterations" (n + 1)))
      before := [.declareInit (numbered "virt_group_id" (n + 3)) .i64
        (.var (numbered "phys_group_id" n) + .var (numbered "i" (n + 2)) * l.numGroups)]
      after := [.barrier .global] } coverage s flat).wrap body).Private K := by
    refine fun coverage => private_atPoint hs ?_ ?_ ?_ ?_ hbody
    · simp only [List.forall_mem_cons, List.not_mem_nil, false_imp_iff, implies_true, and_true]
      exact ⟨.ask (not_of_generated hK ⟨_, by decide, _, rfl⟩),
        .declareInit (not_of_generated hK ⟨_, by decide, _, rfl⟩)⟩
    · rintro _ _ ⟨⟩
      exact not_of_generated hK ⟨_, by decide, _, rfl⟩
    · exact List.forall_mem_singleton.mpr (.declareInit (not_of_generated hK ⟨_, by decide, _, rfl⟩))
    · exact List.forall_mem_singleton.mpr (.of_nil rfl rfl)
  cases coverage with
  | direct =>
    show ((Launch.atPoint {} .direct s flat).wrap body).Private K
    exact private_atPoint hs (by simp) (by simp) (by simp) (by simp) hbody
  | virtualize => exact loops _
  | full => exact loops _

end Lowering

/-! ### The kernel -/

namespace Segmented
variable {op : SegOp} {H : Surroundings} {setting : Setting} {pattern : List PatElem} {σ σ' : Session} {u : Unit}

/-- The code of the kernel of a map, made when some names were taken. -/
def code (op : SegOp) (n : Nat) (body results : Stmt) : Stmt :=
  let start := (Launch.start op.grid.groupCount op.grid.groupWidth).run n
  .block [start.1.2, ((start.1.1.coverByThreads op.grid.coverage op.space).run start.2).1.wrap (.block [body, results])]

/-- A kernel that runs the code of a map, with all that the code needs from a host. -/
structure Runs (op : SegOp) (setting : Setting) (H : Surroundings) (pattern : List PatElem) (k : Kernel) : Prop where
  codes : ∃ n body results, op.Compiled setting pattern
      (((((Launch.start op.grid.groupCount op.grid.groupWidth).run n).1.1.coverByThreads op.grid.coverage op.space).run
        (n + 4)).2) body results ∧
    (op.code n body results).Private H.env.Known ∧ k.body = .block [(op.code n body results).dropShared]
  numGroups : k.numGroups = op.grid.groupCount
  groupSize : k.groupSize = op.grid.groupWidth
  captures : ∃ captured, k.captures.foldlM (Device.capture H.host H.memory) {} = .ok captured ∧
    k.body.Agrees captured (H.env.bindings H.host)

theorem WellNamed.known_not_generated (h : op.WellNamed H.env) : ∀ x, H.env.Known x → ¬Generated x := fun x hx =>
  h.hostNames x (hx.imp id Or.inl)

/-- The kernel that is added to a program is the hoisted code, and the host can serve it if the code declares no
    variable of the host, and uses no tuning parameter and only such arrays for which there is memory. -/
theorem emitKernel_adds (hH : H.Complete) (henv : setting.env = H.env) {stem : String} {numGroups groupSize : Exp}
    {whole : Stmt}
    (hscalars : ∀ body, whole.hoist = .ok body → ∀ x ∈ body.freeScalars, H.env.Known x ∨ ∀ t ∈ σ.program.tuning,
      t.name ≠ x)
    (hmemory : ∀ body, whole.hoist = .ok body → ∀ x ∈ body.freeMemory,
      x ∈ H.env.arrays ∨ ∀ a ∈ σ.program.allocations, a.name = x → x ∈ H.memory ∧ ¬H.env.Known x)
    (hwhole : ∀ x ∈ whole.declared, ¬H.env.Known x)
    (h : emitKernel stem numGroups groupSize whole setting σ = .ok (u, σ')) :
    ∃ k, σ'.program = { σ.program with kernels := σ.program.kernels ++ [k] } ∧
      (∀ x ∈ k.body.freeScalars, ∃ c ∈ k.captures, scalarCapture? H.env σ.program x = some c) ∧
        whole.hoist = .ok k.body ∧
      k.numGroups = numGroups ∧ k.groupSize = groupSize ∧ ∃ captured,
        k.captures.foldlM (Device.capture H.host H.memory) {} = .ok captured ∧
          k.body.Agrees captured (H.env.bindings H.host) := by
  obtain ⟨k, -, hnum, hsize, hhoist, hcaptures, rfl⟩ := emitKernel_eq_ok h
  have hdeclared : ∀ x ∈ k.body.declared, ¬H.env.Known x := fun x hx =>
    hwhole x ((Stmt.declared_hoist hhoist).mem_iff.mp hx)
  refine ⟨k, rfl, fun x hx => ?_, hhoist, hnum, hsize,
    (captures_served (σ := { σ with names := σ.names + 1 }) hH henv (hscalars k.body hhoist)
      (hmemory k.body hhoist) hdeclared
      hcaptures).2⟩
  rw [← henv]
  exact exists_mem_captures hcaptures hx

/-- The first kernel of a program without tuning parameters. -/
theorem emitKernel_serves (hH : H.Complete) (henv : setting.env = H.env) (hkernels : σ.program.kernels = [])
    (htuning : σ.program.tuning = [])
    (hallocations : ∀ a ∈ σ.program.allocations, a.name ∈ H.memory ∧ ¬H.env.Known a.name) {stem : String}
    {numGroups groupSize : Exp} {whole : Stmt} (hwhole : ∀ x ∈ whole.declared, ¬H.env.Known x)
    (h : emitKernel stem numGroups groupSize whole setting σ = .ok (u, σ')) :
    ∃ k, σ'.program = { σ.program with kernels := [k] } ∧ whole.hoist = .ok k.body ∧ k.numGroups = numGroups ∧
      k.groupSize = groupSize ∧ ∃ captured, k.captures.foldlM (Device.capture H.host H.memory) {} = .ok captured ∧
        k.body.Agrees captured (H.env.bindings H.host) := by
  obtain ⟨k, hprogram, -, hserved⟩ := emitKernel_adds hH henv (fun _ _ _ _ => Or.inr (by simp [htuning]))
    (fun _ _ _ _ => Or.inr fun a ha e => e ▸ hallocations a ha) hwhole h
  rw [hkernels] at hprogram
  exact ⟨k, hprogram, hserved⟩

/-- A kernel made of code that declares names of its own runs the code, and the host can serve it. -/
theorem emitKernel_runs (hH : H.Complete) (henv : setting.env = H.env) (hσ : σ.program = {}) {stem : String}
    {numGroups groupSize : Exp} {whole : Stmt} (hwhole : whole.Private H.env.Known)
    (h : emitKernel stem numGroups groupSize whole setting σ = .ok (u, σ')) :
    ∃ k, σ'.program = { kernels := [k] } ∧ k.body = .block [whole.dropShared] ∧ k.numGroups = numGroups ∧
      k.groupSize = groupSize ∧ ∃ captured, k.captures.foldlM (Device.capture H.host H.memory) {} = .ok captured ∧
        k.body.Agrees captured (H.env.bindings H.host) := by
  obtain ⟨k, hprogram, hhoist, hnum, hsize, hserved⟩ := emitKernel_serves hH henv (by rw [hσ]) (by rw [hσ])
    (fun a ha => by rw [hσ] at ha; cases ha) hwhole.names h
  exact ⟨k, by rw [hprogram, hσ], (Except.ok.inj (hhoist.symm.trans hwhole.hoist_eq)), hnum, hsize, hserved⟩

/-- The lowering of a map adds one kernel, which runs its code. -/
theorem mapByThreads_runs (hop : op.WellNamed H.env) (hH : H.Complete) (henv : setting.env = H.env)
    (hσ : σ.program = {}) (h : mapByThreads pattern op setting σ = .ok (u, σ')) :
    ∃ k, σ'.program = { kernels := [k] } ∧ op.Runs setting H pattern k := by
  simp only [mapByThreads, bind_eq_ok, lift_eq_ok] at h
  obtain ⟨start, σ₁, ⟨rfl, rfl⟩, nest, σ₂, ⟨rfl, rfl⟩, made, σ₃, hbody, results, σ₄, hresults, h⟩ := h
  obtain ⟨body, scope⟩ := made
  have hnames : ∀ x ∈ op.names, ¬H.env.Known x := hop.unknown
  obtain ⟨pbody, hσ₃⟩ := makes_threadBody (K := H.env.Known)
    (fun stm hstm x hx => hnames x (List.mem_append_right _ (List.mem_flatMap.mpr ⟨stm, hstm, hx⟩))) _ _ _ hbody
  obtain ⟨presults, hσ₄⟩ := makes_threadResults hop.known_not_generated _ _ _ hresults
  have pcode : (op.code σ.names body results).Private H.env.Known := by
    refine .block (List.forall_mem_cons.mpr
      ⟨private_entry hop.known_not_generated _ _ _, List.forall_mem_singleton.mpr ?_⟩)
    refine private_coverGroups hop.known_not_generated (fun x hx => hnames x (List.mem_append_left _ hx)) (.block ?_) _
    exact List.forall_mem_cons.mpr ⟨pbody, List.forall_mem_singleton.mpr presults⟩
  obtain ⟨k, hprogram, hkbody, hnum, hsize, hserved⟩ := emitKernel_runs hH henv ((hσ₄.trans hσ₃).trans hσ) pcode h
  exact ⟨k, hprogram, ⟨σ.names, body, results, ⟨_, scope, _, σ₃, σ₄, Nat.le_refl _, hbody, hresults⟩, pcode, hkbody⟩,
    hnum, hsize,
    hserved⟩

end Segmented
end SegKernel
