import SegKernel.Launch.Nest
import SegKernel.Proofs.Convergence.Uniform
import SegKernel.Proofs.Names.Scope

/-! Expressions over a set of names, and quiet and uniform code, as the constructors build them. -/

namespace SegKernel

namespace Exp
variable {U : Common} {x y : Exp}

theorem over_var {name : Ident} : (Exp.var name).Over U ↔ U name := by
  simp [Over, occurrences]

theorem over_const (v : Value) : (Exp.const v).Over U := by
  simp [Over, occurrences]

theorem over_int (v : Int64) : (Exp.int v).Over U := over_const _

theorem over_binary {op : BinaryOp} (hx : x.Over U) (hy : y.Over U) : (Exp.binary op x y).Over U := by
  intro z hz
  rcases List.mem_append.mp hz with hz | hz
  · exact hx z hz
  · exact hy z hz

theorem over_apply {op : BinaryOp} (hx : x.Over U) (hy : y.Over U) : (Exp.apply op x y).Over U := by
  unfold apply
  split
  · exact over_int _
  · unfold unitOperand
    split <;> (repeat' split) <;> first | exact hx | exact hy | exact over_binary hx hy

theorem over_test {op : Comparison} (hx : x.Over U) (hy : y.Over U) : (Exp.test op x y).Over U := by
  unfold test
  split
  · exact over_const _
  · intro z hz
    rcases List.mem_append.mp hz with hz | hz
    · exact hx z hz
    · exact hy z hz

theorem over_add (hx : x.Over U) (hy : y.Over U) : (x + y).Over U := over_apply hx hy
theorem over_sub (hx : x.Over U) (hy : y.Over U) : (x - y).Over U := over_apply hx hy
theorem over_mul (hx : x.Over U) (hy : y.Over U) : (x * y).Over U := over_apply hx hy
theorem over_div (hx : x.Over U) (hy : y.Over U) : (x / y).Over U := over_apply hx hy

theorem over_divUp (hx : x.Over U) (hy : y.Over U) : (x.divUp y).Over U :=
  over_div (over_sub (over_add hx hy) (over_int 1)) hy

theorem over_both (hx : x.Over U) (hy : y.Over U) : (x.both y).Over U := by
  unfold both
  split
  · exact hy
  · exact hx
  · exact over_const _
  · exact over_const _
  · exact over_binary hx hy

theorem over_foldl_mul {factors : List Exp} : ∀ {x : Exp}, x.Over U → (∀ y ∈ factors, y.Over U) →
    (factors.foldl (· * ·) x).Over U := by
  induction factors with
  | nil => exact fun hx _ => hx
  | cons y ys ih =>
    intro x hx h
    exact ih (over_mul hx (h y List.mem_cons_self)) fun z hz => h z (List.mem_cons_of_mem y hz)

theorem over_product {factors : List Exp} (h : ∀ y ∈ factors, y.Over U) : (Exp.product factors).Over U :=
  over_foldl_mul (over_int 1) h

theorem over_flatten {dims indices : List Exp} (hd : ∀ x ∈ dims, x.Over U) (hi : ∀ x ∈ indices, x.Over U) :
    (Exp.flatten dims indices).Over U := by
  have fold : ∀ (l : List (Exp × Exp)) (position : Exp), (∀ p ∈ l, p.1.Over U ∧ p.2.Over U) → position.Over U →
      (l.foldl (fun position p => position * p.1 + p.2) position).Over U := by
    intro l
    induction l with
    | nil => exact fun _ _ h => h
    | cons p l ih =>
      intro position hl h
      obtain ⟨h₁, h₂⟩ := hl p List.mem_cons_self
      exact ih _ (fun q hq => hl q (List.mem_cons_of_mem p hq)) (over_add (over_mul h h₁) h₂)
  exact fold _ _ (fun p hp => ⟨hd _ (List.of_mem_zip hp).1, hi _ (List.of_mem_zip hp).2⟩) (over_int 0)

theorem over_foldl_both {conditions : List Exp} : ∀ {x : Exp}, x.Over U → (∀ y ∈ conditions, y.Over U) →
    (conditions.foldl both x).Over U := by
  induction conditions with
  | nil => exact fun hx _ => hx
  | cons y ys ih =>
    intro x hx h
    exact ih (over_both hx (h y List.mem_cons_self)) fun z hz => h z (List.mem_cons_of_mem y hz)

theorem over_all {conditions : List Exp} (h : ∀ y ∈ conditions, y.Over U) : (Exp.all conditions).Over U :=
  over_foldl_both (over_const _) h

end Exp

namespace Operand

theorem over_toExp {U : Common} {o : Operand} (h : ∀ x ∈ o.vars, U x) : o.toExp.Over U := by
  cases o with
  | const v => exact Exp.over_const v
  | var name => exact Exp.over_var.mpr (h name (List.mem_singleton_self name))

end Operand

/-! ### Sequences -/

section
variable {U : Common} {stmts : List Stmt}

theorem Quiet.pieces {s : Stmt} (h : Quiet U s) : ∀ p ∈ s.pieces, Quiet U p := by
  cases h with
  | skip => simp [Stmt.pieces]
  | seq all => exact all
  | _ =>
    intro p hp
    obtain rfl := List.mem_singleton.mp hp
    constructor <;> assumption

theorem Quiet.flatMap_pieces (h : ∀ s ∈ stmts, Quiet U s) : ∀ p ∈ stmts.flatMap Stmt.pieces, Quiet U p := by
  intro p hp
  obtain ⟨s, hs, hp⟩ := List.mem_flatMap.mp hp
  exact (h s hs).pieces p hp

theorem Quiet.block (h : ∀ s ∈ stmts, Quiet U s) : Quiet U (.block stmts) := by
  have hp := flatMap_pieces h
  unfold Stmt.block
  split
  · exact .skip
  · rename_i s hs
    exact hp s (hs ▸ List.mem_singleton_self s)
  · exact .seq hp

theorem Quiet.when {c : Exp} {body : Stmt} (h : Quiet U body) : Quiet U (.when c body) := by
  unfold Stmt.when
  split
  · exact h
  · exact .skip
  · exact .branch h .skip

theorem Quiet.declareInit {name : Ident} {type : ScalarType} {x : Exp} (h : ¬U name) :
    Quiet U (.declareInit name type x) :=
  .seq (by simpa using ⟨.declare h, .set h⟩)

theorem Uniform.pieces {s : Stmt} (h : Uniform U s) : ∀ p ∈ s.pieces, Uniform U p := by
  cases h with
  | quiet q => exact fun p hp => .quiet (q.pieces p hp)
  | seq all => exact all
  | _ =>
    intro p hp
    obtain rfl := List.mem_singleton.mp hp
    first
      | exact .declare
      | exact .barrier
      | exact .branch ‹_› ‹_› ‹_›
      | exact .comment ‹_›
      | exact .declareArray ‹_›
      | exact .set ‹_›
      | exact .read ‹_›
      | exact .write ‹_›
      | exact .loop ‹_› ‹_›
      | exact .repeatWhile ‹_› ‹_›
      | exact .query ‹_›

theorem Uniform.flatMap_pieces (h : ∀ s ∈ stmts, Uniform U s) : ∀ p ∈ stmts.flatMap Stmt.pieces, Uniform U p := by
  intro p hp
  obtain ⟨s, hs, hp⟩ := List.mem_flatMap.mp hp
  exact (h s hs).pieces p hp

theorem Uniform.block (h : ∀ s ∈ stmts, Uniform U s) : Uniform U (.block stmts) := by
  have hp := flatMap_pieces h
  unfold Stmt.block
  split
  · exact .quiet .skip
  · rename_i s hs
    exact hp s (hs ▸ List.mem_singleton_self s)
  · exact .seq hp

theorem Uniform.when {c : Exp} {body : Stmt} (hc : c.Over U) (h : Uniform U body) : Uniform U (.when c body) := by
  unfold Stmt.when
  split
  · exact h
  · exact .quiet .skip
  · exact .branch hc h (.quiet .skip)

theorem Uniform.declareInit {name : Ident} {type : ScalarType} {x : Exp} (h : U name → x.Over U) :
    Uniform U (.declareInit name type x) :=
  .seq (by simpa using ⟨.declare, .set h⟩)

/-- A nest that the whole group runs together, and that runs its body for any part of the group. -/
theorem Uniform.wrap {n : Nest} {body : Stmt} (hsetup : ∀ s ∈ n.setup, Uniform U s)
    (hcounted : ∀ iter bound, n.counted = some (iter, bound) → bound.Over U)
    (hbefore : ∀ s ∈ n.before, Uniform U s) (hafter : ∀ s ∈ n.after, Uniform U s)
    (hbody : Uniform U (.when n.guard body)) : Uniform U (n.wrap body) := by
  have inner : ∀ s ∈ n.inner body, Uniform U s := by
    intro s hs
    simp only [Nest.inner, List.mem_append, List.mem_singleton] at hs
    rcases hs with (hs | rfl) | hs
    · exact hbefore s hs
    · exact hbody
    · exact hafter s hs
  unfold Nest.wrap
  split
  · rename_i iter bound hc
    refine .block fun s hs => ?_
    rcases List.mem_append.mp hs with hs | hs
    · exact hsetup s hs
    · obtain rfl := List.mem_singleton.mp hs
      exact .loop (hcounted iter bound hc) (.block inner)
  · refine .block fun s hs => ?_
    rcases List.mem_append.mp hs with hs | hs
    · exact hsetup s hs
    · exact inner s hs

end
end SegKernel
