import SegKernel.Proofs.Convergence.Constructors
import SegKernel.Proofs.Execution.Declaring
import SegKernel.Proofs.Maps.Points
import SegKernel.Proofs.Names.Scope

/-! Points that the threads of a group take, all at once. Each thread declares the indices of its own position,
    and the guard of the space tells it whether there is a point. -/

namespace SegKernel
open Exp Run

/-! ### Several variables -/

/-- Variables get values, one after another. -/
def Thread.bindAll (th : Thread) (entries : List (Ident × Value)) :
    Thread := entries.foldl (fun th e => th.bind e.1 e.2) th

namespace Thread
variable {th : Thread} {entries : List (Ident × Value)}

theorem scope_bindAll (captured : Table Value) :
    (th.bindAll entries).scope captured = (th.scope captured).sets entries := by
  induction entries generalizing th with
  | nil => rfl
  | cons e entries ih =>
    rw [show th.bindAll (e :: entries) = (th.bind e.1 e.2).bindAll entries from rfl, ih]
    exact congrArg (Scope.sets · entries) (funext fun y => th.scope_bind captured e.1 e.2 y)

theorem scalars_bindAll {x : Ident} (h : ∀ e ∈ entries, e.1 ≠ x) :
    (th.bindAll entries).scalars[x]? = th.scalars[x]? := by
  induction entries generalizing th with
  | nil => rfl
  | cons e entries ih =>
    rw [show th.bindAll (e :: entries) = (th.bind e.1 e.2).bindAll entries from rfl,
      ih fun e' he' => h e' (List.mem_cons_of_mem e he')]
    exact Table.getElem?_insert_of_ne _ _ (h e List.mem_cons_self)

theorem arrays_bindAll : (th.bindAll entries).arrays = th.arrays := by
  induction entries generalizing th with
  | nil => rfl
  | cons e entries ih => exact ih

end Thread

namespace GroupState

/-- In some threads variables get values, in each thread its own. -/
def bindAll (s : GroupState) (active : List Nat) (entries : Nat → List (Ident × Value)) : GroupState :=
  s.modifyAll active fun t th => th.bindAll (entries t)

variable {s : GroupState} {ctx : GroupContext} {active : List Nat} {t : Nat}
  {entries entries' : Nat → List (Ident × Value)}

@[simp] theorem size_bindAll : (s.bindAll active entries).threads.size = s.threads.size := size_modifyAll

theorem scope_bindAll (ht : t ∈ active) (hsize : t < s.threads.size) :
    (s.bindAll active entries).scope ctx t = (s.scope ctx t).sets (entries t) := by
  rw [scope_eq, bindAll, thread_modifyAll ht hsize, Thread.scope_bindAll]
  rfl

theorem bindAll_congr (h : ∀ t ∈ active, entries t = entries' t) :
    s.bindAll active entries = s.bindAll active entries' :=
  modifyAll_congr fun t ht _ => by rw [h t ht]

theorem bindAll_nil (h : ∀ t ∈ active, entries t = []) : s.bindAll active entries = s := by
  have hsame : s.threads.mapIdx (fun _ th => th) = s.threads := Array.ext (by simp) fun i _ _ => by simp
  rw [show s.bindAll active entries = s.bindAll active fun _ => [] from bindAll_congr h]
  simp [bindAll, modifyAll, Thread.bindAll, hsame]

theorem bindAll_bindAll :
    (s.bindAll active entries).bindAll active entries' = s.bindAll active fun t => entries t ++ entries' t := by
  rw [bindAll, bindAll, modifyAll_modifyAll]
  exact congrArg (s.modifyAll active) (funext₂ fun t th => (List.foldl_append ..).symm)

end GroupState

namespace Keeps
open GroupState
variable {U : Common} {a b : GroupState} {ctx : GroupContext} {active : List Nat} {entries : Nat → List (Ident × Value)}

theorem bindAll (h : ∀ t ∈ active, ∀ e ∈ entries t, ¬U e.1) : Keeps U a (a.bindAll active entries) := by
  have thread : ∀ t, (a.bindAll active entries).thread t = a.thread t ∨
      t ∈ active ∧ (a.bindAll active entries).thread t = (a.thread t).bindAll (entries t) := by
    intro t
    by_cases ht : t ∈ active ∧ t < a.threads.size
    · exact .inr ⟨ht.1, thread_modifyAll ht.1 ht.2⟩
    · left
      rw [not_and_or] at ht
      rcases ht with ht | ht <;> simp [GroupState.thread, GroupState.bindAll, GroupState.modifyAll, ht]
  refine ⟨size_bindAll, fun t x hx => ?_, fun t x _ => ?_⟩
  · rcases thread t with hth | ⟨ht, hth⟩
    · rw [hth]
    · rw [hth, Thread.scalars_bindAll fun e he he' => h t ht e he (he' ▸ hx)]
  · rcases thread t with hth | ⟨-, hth⟩
    · rw [hth]
    · rw [hth, Thread.arrays_bindAll]

theorem isInt (h : Keeps U a b) {x : Exp} (hx : x.Over U) {t : Nat} {i : Int} (hi : IsInt (a.scope ctx t) x i) :
    IsInt (b.scope ctx t) x i := by
  obtain ⟨v, hv, e⟩ := hi
  exact ⟨v, (h.eval ctx hx t).trans hv, e⟩

theorem isInts (h : Keeps U a b) {xs : List Exp} (hxs : ∀ x ∈ xs, x.Over U) {t : Nat} {is : List Int}
    (hi : List.Forall₂ (IsInt (a.scope ctx t)) xs is) : List.Forall₂ (IsInt (b.scope ctx t)) xs is := by
  induction hi with
  | nil => exact .nil
  | cons hi _ ih =>
    exact .cons (h.isInt (hxs _ List.mem_cons_self) hi) (ih fun x hx => hxs x (List.mem_cons_of_mem _ hx))

end Keeps

/-! ### Indices -/

namespace Run
open GroupState
variable {U : Common} {ctx : GroupContext} {active : List Nat}

/-- All threads declare a variable, each with its own number. -/
theorem exec_declareNat (hnd : active.Nodup) {a : GroupState} (hsize : ∀ t ∈ active, t < a.threads.size) {name : Ident}
    (hname : ¬U name) {x : Exp} (hover : x.Over U) {f : Nat → Nat} (hx : ∀ t ∈ active, IsInt (a.scope ctx t) x (f t)) :
    exec ctx (.declareInit name .i64 x) active a =
      .ok () (a.bindAll active fun t => [(name, .i64 (Int64.ofNat (f t)))]) :=
  exec_declareInit hnd hsize (fun y hy e => hname (e ▸ hover y hy)) (fun t ht => (hx t ht).eval_nat) fun _ _ => rfl

/-- All threads declare several variables. -/
theorem execAll_declareNats (hnd : active.Nodup) :
    ∀ {names : List Ident} {xs : List Exp} {a : GroupState} {is : Nat → List Nat},
    (∀ t ∈ active, t < a.threads.size) → (∀ x ∈ names, ¬U x) → (∀ x ∈ xs, x.Over U) →
      (∀ t ∈ active, List.Forall₂ (IsInt (a.scope ctx t)) xs (ints (is t))) →
        execAll ctx ((names.zip xs).map fun (name, x) => .declareInit name .i64 x) active a =
          .ok () (a.bindAll active fun t => names.zip (indexValues (is t)))
  | [], xs, a, is, _, _, _, _ => by
    rw [List.zip_nil_left, List.map_nil, execAll_nil, bindAll_nil fun _ _ => List.zip_nil_left]
    rfl
  | name :: names, [], a, is, _, _, _, hx => by
    rw [List.zip_nil_right, List.map_nil, execAll_nil, bindAll_nil fun t ht => ?_]
    · rfl
    · rw [List.forall₂_nil_left_iff.mp (List.forall₂_map_right_iff.mp (hx t ht))]
      rfl
  | name :: names, x :: xs, a, is, hsize, hnames, hover, hx => by
    have hvalues : ∀ t ∈ active, ∃ i rest, IsInt (a.scope ctx t) x ((i : Nat) : Int) ∧
        List.Forall₂ (fun x (n : Nat) => IsInt (a.scope ctx t) x n) xs rest ∧ is t = i :: rest := fun t ht =>
      List.forall₂_cons_left_iff.mp (List.forall₂_map_right_iff.mp (hx t ht))
    have hname : ¬U name := hnames name List.mem_cons_self
    have hfirst : ∀ t ∈ active, IsInt (a.scope ctx t) x ((is t).headD 0) := fun t ht => by
      obtain ⟨i, rest, hi, -, his⟩ := hvalues t ht
      rwa [his]
    let a₁ := a.bindAll active fun t => [(name, .i64 (Int64.ofNat ((is t).headD 0)))]
    have hkeeps : Keeps U a a₁ := Keeps.bindAll fun t _ e he => List.mem_singleton.mp he ▸ hname
    have hrest : ∀ y ∈ xs, y.Over U := fun y hy => hover y (List.mem_cons_of_mem x hy)
    have hothers : ∀ t ∈ active, List.Forall₂ (IsInt (a₁.scope ctx t)) xs (ints (is t).tail) := fun t ht => by
      obtain ⟨i, rest, -, hi, his⟩ := hvalues t ht
      rw [his]
      exact hkeeps.isInts hrest (List.forall₂_map_right_iff.mpr hi)
    have others := execAll_declareNats hnd (fun t ht => by rw [size_bindAll]; exact hsize t ht)
      (fun y hy => hnames y (List.mem_cons_of_mem name hy)) hrest hothers
    rw [List.zip_cons_cons, List.map_cons,
      execAll_of_ok (exec_declareNat hnd hsize hname (hover x List.mem_cons_self) hfirst),
      others, bindAll_bindAll]
    refine congrArg _ (bindAll_congr fun t ht => ?_)
    obtain ⟨i, rest, -, -, his⟩ := hvalues t ht
    rw [his]
    rfl

end Run

theorem Stmt.over_indexExps {U : Common} {flat : Exp} (hflat : flat.Over U) {dims : List (Ident × Exp)}
    (hdims : ∀ d ∈ dims, d.2.Over U) : ∀ x ∈ indexExps flat dims, x.Over U := by
  have product : ∀ {dims : List (Ident × Exp)}, (∀ d ∈ dims, d.2.Over U) →
    (Exp.product (dims.map (·.2))).Over U := fun h =>
    over_product (List.forall_mem_map.mpr h)
  have inner : ∀ {dims : List (Ident × Exp)}, (∀ d ∈ dims, d.2.Over U) → ∀ x ∈ innerExps flat dims, x.Over U := by
    intro dims
    induction dims with
    | nil => exact fun _ _ hx => nomatch hx
    | cons d dims ih =>
      intro h
      obtain ⟨hd, h⟩ := List.forall_mem_cons.mp h
      exact List.forall_mem_cons.mpr ⟨over_apply (over_div hflat (product h)) hd, ih h⟩
  cases dims with
  | nil => exact fun _ hx => nomatch hx
  | cons d dims =>
    obtain ⟨-, hdims⟩ := List.forall_mem_cons.mp hdims
    exact List.forall_mem_cons.mpr ⟨over_div hflat (product hdims), inner hdims⟩

/-- All threads declare the indices of their positions. -/
theorem Run.exec_unflatten {U : Common} {ctx : GroupContext} {active : List Nat} {a : GroupState} (hnd : active.Nodup)
    (hsize : ∀ t ∈ active, t < a.threads.size) {dims : List (Ident × Exp)} {ds : List Nat} (hnames : ∀ d ∈ dims, ¬U d.1)
    (hover : ∀ d ∈ dims, d.2.Over U)
    (hdims : ∀ t ∈ active, List.Forall₂ (fun d (n : Nat) => IsInt (a.scope ctx t) d.2 n) dims ds)
    (hpos : ∀ n ∈ ds.tail, 0 < n) (hfits : Fits ds.tail.prod) {flat : Exp} {f : Nat → Nat} (hflat : flat.Over U)
    (hposition : ∀ t ∈ active, IsInt (a.scope ctx t) flat (f t)) :
    exec ctx (.unflatten dims flat) active a =
      .ok () (a.bindAll active fun t => (dims.map (·.1)).zip (indexValues (coords ds (f t)))) := by
  rw [Stmt.unflatten_eq, exec_block]
  exact execAll_declareNats hnd hsize (List.forall_mem_map.mpr hnames) (Stmt.over_indexExps hflat hover)
    fun t ht => Stmt.isInts_indexExps (hposition t ht) (hdims t ht) hpos hfits

/-! ### The guard of a space -/

/-- No index exceeds the position. -/
theorem coords_le : ∀ {ds : List Nat} {f : Nat}, ∀ i ∈ coords ds f, i ≤ f
  | [], _, _, h => nomatch h
  | _ :: ds, f, i, h => by
    rcases List.mem_cons.mp h with rfl | h
    · exact Nat.div_le_self ..
    · exact Nat.le_trans (coords_le i h) (Nat.mod_le ..)

/-- There is a point at a position if its first index lies below its extent, because the others always do. -/
theorem inside_coords_iff {ds : List Nat} (hne : ds ≠ []) (hpos : ∀ d ∈ ds, 0 < d) {f : Nat} :
    Inside (ints ds) (ints (coords ds f)) ↔ f < ds.prod := by
  refine ⟨fun h => ?_, inside_coords⟩
  cases ds with
  | nil => exact absurd rfl hne
  | cons d ds =>
    have hprod := prod_pos_of_forall (List.forall_mem_cons.mp hpos).2
    obtain ⟨⟨-, hlt⟩, -⟩ := inside_cons.mp h
    rw [List.prod_cons, ← Nat.div_lt_iff_lt_mul hprod]
    exact Int.ofNat_lt.mp hlt

namespace IterationSpace
variable {s : IterationSpace} {σ : Scope}

/-- The names of a point with their values. -/
def point (s : IterationSpace) (ds : List Nat) (f : Nat) : List (Ident × Value) :=
  (s.flat, .i64 (Int64.ofNat f)) :: s.indices.zip (indexValues (coords ds f))

theorem name_of_mem_point {s : IterationSpace} {ds : List Nat} {f : Nat} {e : Ident × Value} (h : e ∈ s.point ds f) :
    e.1 ∈ s.names := by
  rcases List.mem_cons.mp h with rfl | h
  · exact List.mem_cons_self
  · exact List.mem_cons_of_mem _ (List.of_mem_zip h).1

/-- At a point the indices have the values of the point. -/
theorem isInts_point {τ : Scope} {ds : List Nat} {f : Nat} (hnodup : s.indices.Nodup)
    (hextents : List.Forall₂ (IsInt τ) s.dimExps (ints ds)) (hf : Fits (f : Nat)) :
    List.Forall₂ (IsInt (σ.sets (s.point ds f))) s.indexExps (ints (coords ds f)) := by
  have hlength : s.indices.length = (coords ds f).length := by
    have := hextents.length_eq
    rw [length_coords]
    simpa [indices, dimExps] using this
  have exps : s.indexExps = s.indices.map .var := by
    rw [indexExps, indices, List.map_map]
    rfl
  rw [exps]
  refine isInts_sets (σ := σ.set s.flat (.i64 (Int64.ofNat f))) hnodup hlength fun i hi => ?_
  have := coords_le i hi
  unfold Fits at *
  omega

theorem isBool_isInside {ds is : List Nat} (hextents : List.Forall₂ (IsInt σ) s.dimExps (ints ds))
    (hindices : List.Forall₂ (IsInt σ) s.indexExps (ints is)) :
    IsBool σ s.isInside (decide (Inside (ints ds) (ints is))) := by
  -- On the dimensions, for a condition that already stands in front of the tests.
  have fold : ∀ {dims : List (Ident × Operand)} {ds is : List Nat} {x : Exp} {b : Bool},
      List.Forall₂ (IsInt σ) (dims.map (·.2.toExp)) (ints ds) →
        List.Forall₂ (IsInt σ) (dims.map fun d => .var d.1) (ints is) →
        IsBool σ x b → IsBool σ ((dims.map fun d => (Exp.var d.1).lt d.2.toExp).foldl Exp.both x)
          (b && decide (Inside (ints ds) (ints is))) := by
    intro dims
    induction dims with
    | nil =>
      intro ds is x b hds his hx
      cases ds with
      | cons d ds => cases hds
      | nil =>
        cases is with
        | cons i is => cases his
        | nil => simpa [Inside] using hx
    | cons dim dims ih =>
      intro ds is x b hds his hx
      cases ds with
      | nil => cases hds
      | cons d ds =>
        cases is with
        | nil => cases his
        | cons i is =>
          obtain ⟨hd, hds⟩ := List.forall₂_cons.mp hds
          obtain ⟨hi, his⟩ := List.forall₂_cons.mp his
          have := ih hds his (hx.both fun _ => IsBool.lt hi hd)
          rw [List.map_cons, List.foldl_cons]
          rwa [show (b && decide (Inside (ints (d :: ds)) (ints (i :: is)))) =
            ((b && decide ((i : Int) < d)) && decide (Inside (ints ds) (ints is))) by
              rw [Bool.eq_iff_iff]
              simp [ints, inside_cons, and_assoc]]
  have := fold hextents hindices (IsBool.bool true)
  rw [Bool.true_and] at this
  rw [isInside, Exp.all, extents, List.map_map]
  exact this

end IterationSpace

end SegKernel
