import Mathlib.Data.Option.Basic
import SegKernel.Proofs.Maps.Points
import SegKernel.Proofs.Names.Scope

/-! What a map means: the values that its body computes at each point, and the writes of its results. The
    grid of threads that runs the map has no part in it. -/

namespace SegKernel

/-! ### Expressions -/

namespace Exp

/-- The integer for which an expression stands. -/
def intAt? (σ : Scope) (x : Exp) : Option Int := (x.evalInt σ).toOption.map (·.toInt)

def intsAt? (σ : Scope) (xs : List Exp) : Option (List Int) := xs.mapM (intAt? σ)

end Exp

/-- The results of a computation for each element of a list. -/
theorem mapM_eq_some {α β : Type} {f : α → Option β} {xs : List α} {ys : List β} :
    xs.mapM f = some ys ↔ List.Forall₂ (fun x y => f x = some y) xs ys := by
  induction xs generalizing ys with
  | nil => cases ys <;> simp
  | cons x xs ih =>
    rw [List.mapM_cons]
    cases hx : f x with
    | none => cases ys <;> simp [hx]
    | some y =>
      cases hxs : xs.mapM f with
      | none => cases ys <;> simp [← ih, hxs]
      | some rest => cases ys <;> simp [← ih, hxs, hx]

theorem exists_of_mem_mapM {α β : Type} {f : α → Option β} {xs : List α} {ys : List β} {y : β} (h : xs.mapM f = some ys)
    (hy : y ∈ ys) : ∃ x ∈ xs, f x = some y := by
  rw [mapM_eq_some] at h
  induction h with
  | nil => cases hy
  | @cons x y' xs ys hxy _ ih =>
    rcases List.mem_cons.mp hy with rfl | hy
    · exact ⟨x, List.mem_cons_self, hxy⟩
    · obtain ⟨x', hx', hxy'⟩ := ih hy
      exact ⟨x', List.mem_cons_of_mem x hx', hxy'⟩

theorem mem_of_mapM {α β : Type} {f : α → Option β} {xs : List α} {ys : List β} {x : α} (h : xs.mapM f = some ys)
    (hx : x ∈ xs) : ∃ y ∈ ys, f x = some y := by
  rw [mapM_eq_some] at h
  induction h with
  | nil => cases hx
  | @cons x' y xs ys hxy _ ih =>
    rcases List.mem_cons.mp hx with rfl | hx
    · exact ⟨y, List.mem_cons_self, hxy⟩
    · obtain ⟨y', hy', hxy'⟩ := ih hx
      exact ⟨y', List.mem_cons_of_mem y hy', hxy'⟩

/-- Pairs of a list in which the first parts have different marks. -/
theorem mem_zip_inj {α β γ : Type} {g : α → γ} {p q : α × β} : ∀ {xs : List α} {ys : List β}, (xs.map g).Nodup →
    p ∈ xs.zip ys → q ∈ xs.zip ys → g p.1 = g q.1 → p = q
  | [], _, _, hp, _, _ => by simp at hp
  | _ :: _, [], _, hp, _, _ => by simp at hp
  | x :: xs, y :: ys, hnodup, hp, hq, e => by
    rw [List.map_cons, List.nodup_cons] at hnodup
    have later : ∀ r ∈ xs.zip ys, g r.1 ≠ g x :=
      fun r hr hx => hnodup.1 (hx ▸ List.mem_map_of_mem (List.of_mem_zip hr).1)
    rw [List.zip_cons_cons, List.mem_cons] at hp hq
    rcases hp with rfl | hp <;> rcases hq with rfl | hq
    · rfl
    · exact absurd e.symm (later q hq)
    · exact absurd e (later p hp)
    · exact mem_zip_inj hnodup.2 hp hq e

theorem Exp.intAt?_eq_some {σ : Scope} {x : Exp} {i : Int} : x.intAt? σ = some i ↔ Exp.IsInt σ x i := by
  unfold intAt? evalInt IsInt
  cases x.eval σ with
  | error fault => simp [Except.toOption]
  | ok v => cases v <;> simp [Except.toOption]

theorem Exp.intsAt?_eq_some {σ : Scope} {xs : List Exp} {is : List Int} :
    Exp.intsAt? σ xs = some is ↔ List.Forall₂ (Exp.IsInt σ) xs is := by
  unfold intsAt?
  rw [mapM_eq_some]
  simp only [Exp.intAt?_eq_some]

/-! ### The host -/

/-- The scalars that the host knows under the names that it declares. -/
def HostEnv.bindings (env : HostEnv) (host : Scope) : Table Value :=
  (env.scalars.filterMap fun name _ => host name) ∪ env.constants

/-- What surrounds the bodies of a kernel: the declarations of the host, the values of its scalars and
    constants, and the memory of the device. -/
structure Surroundings where
  env : HostEnv
  host : Scope
  memory : Memory

namespace Surroundings

/-- The variables of the host. -/
def scope (H : Surroundings) : Scope := ((H.env.bindings H.host)[·]?)

theorem known_of_scope {H : Surroundings} {x : Ident} {v : Value} (h : H.scope x = some v) : H.env.Known x := by
  unfold scope HostEnv.bindings at h
  rw [Std.ExtTreeMap.getElem?_union, Option.or_eq_some_iff] at h
  rcases h with h | ⟨-, h⟩
  · exact Or.inr (Std.ExtTreeMap.mem_iff_isSome_getElem?.mpr (Option.isSome_iff_exists.mpr ⟨v, h⟩))
  · rw [Std.ExtTreeMap.getElem?_filterMap', Option.bind_eq_some_iff] at h
    obtain ⟨type, h, -⟩ := h
    exact Or.inl (Std.ExtTreeMap.mem_iff_isSome_getElem?.mpr (Option.isSome_iff_exists.mpr ⟨type, h⟩))

theorem scope_eq_none {H : Surroundings} {x : Ident} (h : ¬H.env.Known x) : H.scope x = none :=
  Option.eq_none_iff_forall_ne_some.mpr fun _ hv => h (known_of_scope hv)

/-- The element of an array of the host at some indices. -/
def element? (H : Surroundings) (array : Ident) (is : List Int) : Option Value := do
  let (type, shape) ← H.env.arrays[array]?
  let extents ← Exp.intsAt? H.scope (shape.map Operand.toExp)
  guard (Inside extents is)
  let b ← H.memory[array]?
  (b.load ⟨array, type, .global, false⟩ (Int64.ofInt (rowMajor extents is))).toOption

end Surroundings

/-! ### Bodies -/

/-- What a body knows: the values of its variables, and the small arrays that it has made. -/
structure Env where
  scalars : Scope
  arrays : Ident → Option (ScalarType × List Value) := fun _ => none

namespace Env

def bind (ρ : Env) (name : Ident) (v : Value) : Env := { ρ with scalars := ρ.scalars.set name v }

def bindArray (ρ : Env) (name : Ident) (type : ScalarType) (vs : List Value) : Env :=
  { ρ with arrays := fun x => if x = name then some (type, vs) else ρ.arrays x }

/-- The element of an array of the body, or else of the host. -/
def element? (ρ : Env) (H : Surroundings) (array : Ident) (is : List Int) : Option Value :=
  match ρ.arrays array with
  | some (_, vs) => do
    guard (Inside [(vs.length : Int)] is)
    vs[(rowMajor [(vs.length : Int)] is).toNat]?
  | none => H.element? array is

/-- The value of an expression, if it is of a type. -/
def valueOf? (ρ : Env) (type : ScalarType) (x : Exp) : Option Value :=
  (x.eval ρ.scalars).toOption.filter (·.type = type)

/-- The small array for which an operand stands. -/
def array? (ρ : Env) : Operand → Option (List Value)
  | .var name => (ρ.arrays name).map (·.2)
  | .const _ => none

end Env

namespace BodyStm

/-- What a body knows after a statement. -/
def eval (H : Surroundings) (ρ : Env) : BodyStm → Option Env
  | compute name type x => do
    let v ← ρ.valueOf? type x
    return ρ.bind name v
  | index name type array is => do
    let v ← ρ.element? H array (← Exp.intsAt? ρ.scalars is)
    guard (v.type = type)
    return ρ.bind name v
  | arrayLit name type elems => do
    let vs ← elems.mapM fun e => ρ.valueOf? type e.toExp
    return ρ.bindArray name type vs
  | nested .. => none

/-- What a body knows after its statements. -/
def evalAll (H : Surroundings) (ρ : Env) (stms : List BodyStm) : Option Env := stms.foldlM (eval H) ρ

theorem evalAll_cons_eq_some {H : Surroundings} {ρ ρ' : Env} {stm : BodyStm} {stms : List BodyStm} :
    evalAll H ρ (stm :: stms) = some ρ' ↔ ∃ ρ₁, stm.eval H ρ = some ρ₁ ∧ evalAll H ρ₁ stms = some ρ' := by
  unfold evalAll
  rw [List.foldlM_cons]
  exact Option.bind_eq_some_iff

end BodyStm

/-! ### Results -/

namespace BodyResult

/-- The write of a scattered value, where its indices lie inside the extents. -/
def scattered (ρ : Env) (dest : Ident) (type : ScalarType) (extents : List Int) (place : List Operand × Operand) :
    Option (Option Write) := do
  let is ← Exp.intsAt? ρ.scalars (place.1.map Operand.toExp)
  if Inside extents is then
    let v ← ρ.valueOf? type place.2.toExp
    return some ⟨⟨.global, dest, (rowMajor extents is).toNat⟩, v.toBits⟩
  else return none

/-- The writes of a result at the point at a row-major position, to a destination of a type: a value to
    this position, the elements of a small array to the part of this position, and scattered values
    where their indices lie inside the extents. -/
def writesTo (ρ : Env) (dest : Ident) (type : ScalarType) (f : Nat) : BodyResult → Option (List Write)
  | returns value =>
    match ρ.array? value with
    | some vs =>
      if ∀ v ∈ vs, v.type = type then
        some (vs.mapIdx fun j v => ⟨⟨.global, dest, f * vs.length + j⟩, v.toBits⟩)
      else none
    | none => do
      let v ← ρ.valueOf? type value.toExp
      return [⟨⟨.global, dest, f⟩, v.toBits⟩]
  | write shape writes => do
    let extents ← Exp.intsAt? ρ.scalars (shape.map Operand.toExp)
    let written ← writes.mapM (scattered ρ dest type extents)
    return written.reduceOption
  | tile .. | concat .. => none

/-- The writes of a result to an array of the host. -/
def writesOn (H : Surroundings) (ρ : Env) (f : Nat) (result : PatElem × BodyResult) : Option (List Write) := do
  let (type, _) ← H.env.arrays[result.1.name]?
  result.2.writesTo ρ result.1.name type f

end BodyResult

/-! ### Maps -/

namespace IterationSpace

/-- What is known at the point at a row-major position: its index in the whole space, and its indices. -/
def pointScope (s : IterationSpace) (σ : Scope) (ds : List Nat) (f : Nat) : Scope :=
  (σ.set s.flat (.i64 (Int64.ofNat f))).sets (s.indices.zip (indexValues (coords ds f)))

end IterationSpace

/-- What the body of a map knows at the start of the point at a row-major position. -/
def Segmented.start (op : SegOp) (H : Surroundings) (ds : List Nat) (f : Nat) : Env :=
  { scalars := op.space.pointScope H.scope ds f }

/-- The writes of a map over a space of some extents at the point at a row-major position. -/
def Segmented.writesAt (op : SegOp) (H : Surroundings) (pattern : List PatElem) (ds : List Nat) (f : Nat) :
    Option (List Write) := do
  let ρ ← BodyStm.evalAll H (op.start H ds f) op.stms
  let writes ← (pattern.zip op.results).mapM (BodyResult.writesOn H ρ f)
  return writes.flatten

/-- The writes of a map at all points of its space, in row-major order. -/
def Segmented.writes (op : SegOp) (H : Surroundings) (pattern : List PatElem) (ds : List Nat) : Option (List Write) :=
  ((List.range ds.prod).mapM (op.writesAt H pattern ds)).map List.flatten

/-! ## Concatenations

What a map stores, with results that are concatenated: each thread has a small array, and their elements
go to the destination one part after another, or in turn, as far as the destination reaches. -/

/-- The place of element `j` of the part of `p` elements of point `f` in a concatenation. -/
def Split.place? (σ : Scope) (p f : Nat) : Split → Option (Nat → Nat)
  | contiguous => some fun j => f * p + j
  | strided stride => do
    let s ← stride.toExp.intAt? σ
    guard (0 ≤ s)
    return fun j => f + j * s.toNat

/-- The elements of a part that have their places before the end of an array of `n` elements. -/
def concatenated (dest : Ident) (n : Nat) (place : Nat → Nat) (p : Nat) (vs : List Value) : List Write :=
  (List.range p).filterMap fun j => if place j < n then vs[j]?.map fun v =>
    ⟨⟨.global, dest, place j⟩, v.toBits⟩ else none

theorem concatenated_succ {dest : Ident} {n p : Nat} {place : Nat → Nat} {vs : List Value} (hp : p < vs.length) :
    concatenated dest n place (p + 1) vs = concatenated dest n place p vs ++
      (if place p < n then [⟨⟨.global, dest, place p⟩, vs[p].toBits⟩] else []) := by
  unfold concatenated
  rw [List.range_succ, List.filterMap_append]
  congr 1
  split
  · simp [List.filterMap, *]
  · simp [List.filterMap, *]

theorem mem_concatenated {dest : Ident} {n p : Nat} {place : Nat → Nat} {vs : List Value} {w : Write} :
    w ∈ concatenated dest n place p vs ↔
      ∃ j v, j < p ∧ vs[j]? = some v ∧ place j < n ∧ w = ⟨⟨.global, dest, place j⟩, v.toBits⟩ := by
  unfold concatenated
  simp only [List.mem_filterMap, List.mem_range]
  constructor
  · rintro ⟨j, hj, hw⟩
    split at hw
    · obtain ⟨v, hv, rfl⟩ := Option.map_eq_some_iff.mp hw
      exact ⟨j, v, hj, hv, ‹_›, rfl⟩
    · cases hw
  · rintro ⟨j, v, hj, hv, hplace, rfl⟩
    exact ⟨j, hj, by rw [if_pos hplace, hv, Option.map_some]⟩

/-- The sizes of the dimensions of an array of the host. -/
def Surroundings.extents? (H : Surroundings) (shape : List Operand) : Option (List Nat) := do
  let es ← Exp.intsAt? H.scope (shape.map Operand.toExp)
  guard (∀ e ∈ es, 0 ≤ e)
  return es.map Int.toNat

theorem Surroundings.extents?_eq_some {H : Surroundings} {shape : List Operand} {es : List Nat} :
    H.extents? shape = some es ↔ List.Forall₂ (Exp.IsInt H.scope) (shape.map Operand.toExp) (ints es) := by
  simp only [extents?, Option.bind_eq_bind, Option.bind_eq_some_iff, Exp.intsAt?_eq_some, Option.guard_eq_some',
    Option.pure_def,
    Option.some.injEq]
  constructor
  · rintro ⟨is, his, _, hpos, rfl⟩
    have same : ints (is.map Int.toNat) = is := by
      rw [ints, List.map_map]
      exact (List.map_congr_left fun i hi => Int.toNat_of_nonneg (hpos i hi)).trans (List.map_id is)
    rwa [same]
  · intro h
    refine ⟨_, h, (), by simp [ints], ?_⟩
    rw [ints, List.map_map]
    exact List.map_id es

namespace BodyResult

/-- The writes of a result at the point at a row-major position, to a destination of a type and some dimensions. -/
def storesTo (H : Surroundings) (ρ : Env) (dest : Ident) (type : ScalarType) (shape : List Operand) (f : Nat) :
    BodyResult → Option (List Write)
  | concat split perThread array => do
    let es ← H.extents? shape
    let p ← perThread.toExp.intAt? ρ.scalars
    let place ← split.place? ρ.scalars p.toNat f
    let (_, vs) ← ρ.arrays array
    guard (0 ≤ p ∧ p.toNat ≤ vs.length ∧ ∀ v ∈ vs, v.type = type)
    return concatenated dest es.prod place p.toNat vs
  | result => result.writesTo ρ dest type f

/-- The writes of a result to an array of the host. -/
def storesOn (H : Surroundings) (ρ : Env) (f : Nat) (result : PatElem × BodyResult) : Option (List Write) := do
  let (type, shape) ← H.env.arrays[result.1.name]?
  result.2.storesTo H ρ result.1.name type shape f

variable {H : Surroundings} {ρ : Env} {dest : Ident} {type : ScalarType} {shape : List Operand} {f : Nat}
  {ws : List Write}

theorem storesTo_of_writesTo {result : BodyResult} (h : result.writesTo ρ dest type f = some ws) :
    result.storesTo H ρ dest type shape f = some ws := by
  cases result with
  | concat => cases h
  | _ => exact h

/-- Only a concatenated result stores what it does not write alone. -/
theorem writesTo_of_storesTo {result : BodyResult} (h : result.storesTo H ρ dest type shape f = some ws) :
    result.writesTo ρ dest type f = some ws ∨ ∃ split perThread array, result = concat split perThread array := by
  cases result with
  | concat split perThread array => exact Or.inr ⟨split, perThread, array, rfl⟩
  | _ => exact Or.inl h

theorem storesOn_of_writesOn {result : PatElem × BodyResult} (h : writesOn H ρ f result = some ws) :
    storesOn H ρ f result = some ws := by
  simp only [writesOn, Option.bind_eq_bind, Option.bind_eq_some_iff] at h
  obtain ⟨⟨type, shape⟩, harray, h⟩ := h
  unfold storesOn
  rw [harray]
  exact storesTo_of_writesTo h

/-- A concatenated result stores the elements of the thread at their places. -/
theorem storesTo_concat_eq_some {split : Split} {perThread : Operand} {array : Ident} :
    (concat split perThread array).storesTo H ρ dest type shape f = some ws ↔ ∃ es p place t vs,
      H.extents? shape = some es ∧ Exp.IsInt ρ.scalars perThread.toExp (p : Nat) ∧
        split.place? ρ.scalars p f = some place ∧
      ρ.arrays array = some (t, vs) ∧ p ≤ vs.length ∧ (∀ v ∈ vs, v.type = type) ∧
        ws = concatenated dest es.prod place p vs := by
  simp only [storesTo, Option.bind_eq_bind, Option.bind_eq_some_iff, Exp.intAt?_eq_some, Option.pure_def,
    Option.guard_eq_some', Option.some.injEq]
  constructor
  · rintro ⟨es, hes, p, hp, place, hplace, ⟨t, vs⟩, hvs, _, ⟨hpos, hle, htype⟩, rfl⟩
    obtain ⟨p, rfl⟩ := Int.eq_ofNat_of_zero_le hpos
    exact ⟨es, p, place, t, vs, hes, hp, hplace, hvs, hle, htype, rfl⟩
  · rintro ⟨es, p, place, t, vs, hes, hp, hplace, hvs, hle, htype, rfl⟩
    exact ⟨es, hes, p, hp, place, hplace, (t, vs), hvs, (), ⟨Int.natCast_nonneg p, hle, htype⟩, rfl⟩

end BodyResult

namespace Segmented
variable {op : SegOp} {H : Surroundings} {pattern : List PatElem} {ds : List Nat} {f : Nat} {ws : List Write}

/-- What a map stores at the point at a row-major position. -/
def storesAt (op : SegOp) (H : Surroundings) (pattern : List PatElem) (ds : List Nat) (f : Nat) :
    Option (List Write) := do
  let ρ ← BodyStm.evalAll H (op.start H ds f) op.stms
  let writes ← (pattern.zip op.results).mapM (BodyResult.storesOn H ρ f)
  return writes.flatten

theorem mapM_of_mapM {α β : Type} {f g : α → Option β} {xs : List α} {ys : List β}
    (hfg : ∀ x y, f x = some y → g x = some y) (h : xs.mapM f = some ys) : xs.mapM g = some ys :=
  mapM_eq_some.mpr ((mapM_eq_some.mp h).imp hfg)

/-- A map without concatenated results stores what it writes. -/
theorem storesAt_of_writesAt (h : op.writesAt H pattern ds f = some ws) : op.storesAt H pattern ds f = some ws := by
  simp only [writesAt, Option.bind_eq_bind, Option.bind_eq_some_iff, Option.pure_def, Option.some.injEq] at h
  obtain ⟨ρ, hρ, written, hwritten, rfl⟩ := h
  have hstored := mapM_of_mapM (fun _ _ => BodyResult.storesOn_of_writesOn) hwritten
  simp only [storesAt, hρ, hstored, Option.bind_eq_bind, Option.bind_some, Option.pure_def]

end Segmented
end SegKernel
