import SegKernel.Proofs.Convergence.Constructors
import SegKernel.Proofs.Names.Declared

/-! Hoisting keeps a group together: without its shared declarations code is as quiet and as uniform as
    before. The threads may also come to agree on more than before, as they do on an array that
    all have just declared; code leads from one agreement to another. -/

namespace SegKernel
open Run

/-! ### Code without shared declarations -/

section
variable {U : Common}

theorem Quiet.dropShared {s : Stmt} (q : Quiet U s) : Quiet U s.dropShared := by
  induction q with
  | seq _ ih =>
    rw [Stmt.dropShared, Stmt.dropSharedAll_eq_map]
    exact .block (by simpa using ih)
  | comment _ ih =>
    rw [Stmt.dropShared]
    exact .comment ih
  | declareArray h =>
    rw [Stmt.dropShared]
    split
    · exact .skip
    · exact .declareArray h
  | branch _ _ ih₁ ih₂ =>
    rw [Stmt.dropShared]
    exact .branch ih₁ ih₂
  | loop h _ ih =>
    rw [Stmt.dropShared]
    exact .loop h ih
  | repeatWhile _ ih =>
    rw [Stmt.dropShared]
    exact .repeatWhile ih
  | _ =>
    unfold Stmt.dropShared
    constructor <;> assumption

theorem Uniform.dropShared {s : Stmt} (u : Uniform U s) : Uniform U s.dropShared := by
  -- Only a declaration of a shared array changes: it becomes `skip`.
  induction u with
  | quiet q => exact .quiet q.dropShared
  | seq _ ih =>
    rw [Stmt.dropShared, Stmt.dropSharedAll_eq_map]
    exact .block (by simpa using ih)
  | comment _ ih =>
    rw [Stmt.dropShared]
    exact .comment ih
  | declareArray h =>
    rw [Stmt.dropShared]
    split
    · exact .quiet .skip
    · exact .declareArray h
  | branch hc _ _ ih₁ ih₂ =>
    rw [Stmt.dropShared]
    exact .branch hc ih₁ ih₂
  | loop hb _ ih =>
    rw [Stmt.dropShared]
    exact .loop hb ih
  | repeatWhile hc _ ih =>
    rw [Stmt.dropShared]
    exact .repeatWhile hc ih
  | declare => exact .declare
  | barrier => exact .barrier
  | set h =>
    rw [Stmt.dropShared] <;> simp [Uniform.set h]
  | read h =>
    rw [Stmt.dropShared] <;> simp [Uniform.read h]
  | write h =>
    rw [Stmt.dropShared] <;> simp [Uniform.write h]
  | query h =>
    rw [Stmt.dropShared] <;> simp [Uniform.query h]

end

/-! ### From one agreement to another -/

/-- A group that agrees on `U` and runs the code without its shared declarations meets its barriers as a
    whole, and then it agrees on `V`. -/
def Leads (U V : Common) (stmt : Stmt) : Prop :=
  ∀ (ctx : GroupContext) (order : List Nat), order ≠ [] →
    Uniform.Sound U V order (trace maskAt ctx stmt.dropShared order) (exec ctx stmt.dropShared order)

/-- Statements that lead from one agreement to another, one after another. -/
inductive LeadsAll : Common → Common → List Stmt → Prop
  | nil {U : Common} : LeadsAll U U []
  | cons {U V W : Common} {stmt : Stmt} {stmts : List Stmt} (first : Leads U V stmt) (rest : LeadsAll V W stmts) :
    LeadsAll U W (stmt :: stmts)

theorem Uniform.leads {U : Common} {stmt : Stmt} (u : Uniform U stmt) : Leads U U stmt := fun _ _ _ =>
  u.dropShared.sound

theorem LeadsAll.append {U V W : Common} {as bs : List Stmt} (ha : LeadsAll U V as) (hb : LeadsAll V W bs) :
    LeadsAll U W (as ++ bs) := by
  induction ha with
  | nil => exact hb
  | cons first _ ih => exact .cons first (ih hb)

theorem LeadsAll.of_uniform {U : Common} : ∀ {stmts : List Stmt}, (∀ s ∈ stmts, Uniform U s) → LeadsAll U U stmts
  | [], _ => .nil
  | s :: _, h => .cons (h s List.mem_cons_self).leads (of_uniform fun t ht => h t (List.mem_cons_of_mem s ht))

theorem LeadsAll.singleton {U V : Common} {stmt : Stmt} (h : Leads U V stmt) : LeadsAll U V [stmt] := .cons h .nil

/-- The pieces of statements run, without shared declarations, as the statements do. -/
theorem dropShared_flatMap_pieces {α : Type} (events : Events α) (ctx : GroupContext) (active : List Nat)
    (stmts : List Stmt) :
    execAll ctx ((stmts.flatMap Stmt.pieces).map Stmt.dropShared) active =
        execAll ctx (stmts.map Stmt.dropShared) active ∧
      ∀ s, traceAll events ctx ((stmts.flatMap Stmt.pieces).map Stmt.dropShared) active s =
        traceAll events ctx (stmts.map Stmt.dropShared) active s := by
  induction stmts with
  | nil => exact ⟨rfl, fun _ => rfl⟩
  | cons stmt stmts ih =>
    obtain ⟨hexec, hevents⟩ := ih
    have pieces : execAll ctx (stmt.pieces.map Stmt.dropShared) active = exec ctx stmt.dropShared active ∧
        ∀ s, traceAll events ctx (stmt.pieces.map Stmt.dropShared) active s =
          trace events ctx stmt.dropShared active s := by
      cases stmt with
      | skip => exact ⟨by simp [Stmt.pieces, Stmt.dropShared, exec_skip],
          fun s => by simp [Stmt.pieces, Stmt.dropShared, trace_skip]⟩
      | seq stmts =>
        rw [Stmt.pieces, Stmt.dropShared, Stmt.dropSharedAll_eq_map]
        exact ⟨(exec_block _).symm, fun s => (trace_block _).symm⟩
      | _ =>
        rw [Stmt.pieces] <;> try simp
    rw [List.flatMap_cons, List.map_append, execAll_append, List.map_cons, execAll_cons, pieces.1, hexec]
    refine ⟨rfl, fun s => ?_⟩
    rw [traceAll_append, traceAll_cons, pieces.1, pieces.2]
    simp only [hevents]

theorem dropShared_block {α : Type} (events : Events α) (ctx : GroupContext) (active : List Nat) (stmts : List Stmt) :
    exec ctx (Stmt.block stmts).dropShared active = execAll ctx (stmts.map Stmt.dropShared) active ∧
      ∀ s, trace events ctx (Stmt.block stmts).dropShared active s =
        traceAll events ctx (stmts.map Stmt.dropShared) active s := by
  obtain ⟨hexec, hevents⟩ := dropShared_flatMap_pieces events ctx active stmts
  rw [← hexec]
  simp only [← hevents]
  unfold Stmt.block
  split
  · rename_i h
    rw [h]
    exact ⟨by simp [Stmt.dropShared, exec_skip], fun s => by simp [Stmt.dropShared, trace_skip]⟩
  · rename_i stmt h
    rw [h]
    exact ⟨by simp, fun s => by simp⟩
  · rw [Stmt.dropShared, Stmt.dropSharedAll_eq_map]
    exact ⟨exec_block _, fun s => trace_block _⟩

/-- All parts of a nest are for the whole group. -/
structure GroupNest (U : Common) (nest : Nest) : Prop where
  setup : ∀ s ∈ nest.setup, Uniform U s
  counted : ∀ iter bound, nest.counted = some (iter, bound) → bound.Over U
  before : ∀ s ∈ nest.before, Uniform U s
  guard : nest.guard.Over U
  after : ∀ s ∈ nest.after, Uniform U s

namespace Leads
variable {U V W : Common} {stmt : Stmt} {stmts : List Stmt}

theorem mono {V' : Common} (h : Leads U V stmt) (hU : U ≤ W) (hV : V' ≤ V) :
    Leads W V' stmt := fun ctx order hne s hs =>
  ⟨(h ctx order hne s (hs.mono hU)).1, fun s' hs' => ((h ctx order hne s (hs.mono hU)).2 s' hs').mono hV⟩

theorem sound_all (h : LeadsAll U V stmts) (ctx : GroupContext) (order : List Nat) (hne : order ≠ []) :
    Uniform.Sound U V order (traceAll maskAt ctx (stmts.map Stmt.dropShared) order)
      (execAll ctx (stmts.map Stmt.dropShared) order) := by
  induction h with
  | nil =>
    intro s hs
    refine ⟨by simp, fun s' hs' => ?_⟩
    rw [List.map_nil, execAll_nil] at hs'
    exact (pure_eq_ok.mp hs').2 ▸ hs
  | cons first _ ih =>
    intro s hs
    obtain ⟨hmasks, hrun⟩ := first ctx order hne s hs
    constructor
    · intro m hm
      rw [List.map_cons, traceAll_cons, List.mem_append, mem_after] at hm
      rcases hm with hm | ⟨_, s₁, h₁, hm⟩
      · exact hmasks m hm
      · exact (ih s₁ (hrun s₁ h₁)).1 m hm
    · intro s' hs'
      rw [List.map_cons, execAll_cons] at hs'
      obtain ⟨_, s₁, h₁, h₂⟩ := bind_eq_ok.mp hs'
      exact (ih s₁ (hrun s₁ h₁)).2 s' h₂

theorem block (h : LeadsAll U V stmts) : Leads U V (.block stmts) := by
  intro ctx order hne s hs
  rw [(dropShared_block maskAt ctx order stmts).1, (dropShared_block maskAt ctx order stmts).2]
  exact sound_all h ctx order hne s hs

theorem loop {iter : Ident} {bound : Exp} (hb : bound.Over U) (h : Leads U U stmt) :
    Leads U U (.loop iter bound stmt) :=
  fun ctx order hne => by
    rw [Stmt.dropShared]
    exact Uniform.sound_loop hne hb (h ctx order hne)

theorem when {c : Exp} (hc : c.Over U) (h : Leads U U stmt) : Leads U U (.when c stmt) := by
  unfold Stmt.when
  split
  · exact h
  · exact (Uniform.quiet .skip).leads
  · intro ctx order hne
    rw [Stmt.dropShared]
    exact Uniform.sound_branch hne hc (h ctx order hne) (Uniform.quiet .skip).sound

/-- A nest that the whole group runs together. -/
theorem wrap {n : Nest} (h : GroupNest U n) (hbody : Leads U U stmt) : Leads U U (n.wrap stmt) := by
  have inner : LeadsAll U U (n.inner stmt) :=
    ((LeadsAll.of_uniform h.before).append (.singleton (.when h.guard hbody))).append (.of_uniform h.after)
  unfold Nest.wrap
  split
  · rename_i iter bound hc
    exact .block ((LeadsAll.of_uniform h.setup).append (.singleton (.loop (h.counted iter bound hc) (.block inner))))
  · exact .block ((LeadsAll.of_uniform h.setup).append inner)

end Leads

/-! ### Whole kernels -/

theorem together_start {U : Common} {order : List Nat} {s : GroupState} {size : Nat} (hnodup : order.Nodup)
    (hfull : ∀ t, t ∈ order ↔ t < size) (hs : s.threads = Array.replicate size {}) : Together U order s where
  nodup := hnodup
  full t := by rw [hfull, hs, Array.size_replicate]
  agree t ht t' ht' := by
    rw [GroupState.thread_of_replicate hs, GroupState.thread_of_replicate hs]
    exact ⟨fun _ _ => rfl, fun _ _ => rfl⟩

/-- Hoisting leaves shared declarations, which are quiet, in front of the other code. -/
theorem Leads.hoist {U V : Common} {stmt hoisted : Stmt} (h : Leads U V stmt) (hh : stmt.hoist = .ok hoisted)
    (ctx : GroupContext) (order : List Nat) (hne : order ≠ []) :
    Uniform.Sound U V order (trace maskAt ctx hoisted order) (exec ctx hoisted order) := by
  unfold Stmt.hoist at hh
  dsimp only at hh
  split at hh
  · cases hh
  · obtain rfl := Except.ok.inj hh
    intro s hs
    have declares : Uniform.Sound U U order (traceAll maskAt ctx (stmt.sharedArrays.map SharedArray.code) order)
        (execAll ctx (stmt.sharedArrays.map SharedArray.code) order) := by
      refine Uniform.sound_all fun d hd => ?_
      obtain ⟨a, -, rfl⟩ := List.mem_map.mp hd
      exact (Uniform.declareArray fun h => absurd h (by simp)).sound
    obtain ⟨hmasks, hrun⟩ := declares s hs
    simp only [exec_block, trace_block, traceAll_append, execAll_append, traceAll_singleton,
      execAll_singleton, List.mem_append, mem_after]
    constructor
    · rintro m (hm | ⟨_, s₁, h₁, hm⟩)
      · exact hmasks m hm
      · exact (h ctx order hne s₁ (hrun s₁ h₁)).1 m hm
    · intro s' hs'
      obtain ⟨_, s₁, h₁, h₂⟩ := bind_eq_ok.mp hs'
      exact (h ctx order hne s₁ (hrun s₁ h₁)).2 s' h₂

end SegKernel
