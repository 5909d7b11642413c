import SegKernel.Lowering.Map
import SegKernel.Proofs.Maps.Results

/-! The visit of a point by its thread. The thread computes the indices of the point, and if there is
    one, runs the body and writes the results. -/

namespace SegKernel
open Exp

namespace Scope.Before
variable {σ : Scope} {n : Nat}

theorem sets {entries : List (Ident × Value)} (h : σ.Before n) (hnames : ∀ e ∈ entries, ¬New n e.1) :
    (σ.sets entries).Before n := by
  induction entries generalizing σ with
  | nil => exact h
  | cons e entries ih =>
    exact ih (h.set_of_not_new (hnames e List.mem_cons_self)) fun e' he' => hnames e' (List.mem_cons_of_mem e he')

end Scope.Before

namespace BodyStm
variable {H : Surroundings} {ρ ρ' : Env} {stm : BodyStm} {n : Nat}

/-- A statement gives values to the names that it binds. -/
theorem scalars_of_eval {x : Ident} (h : stm.eval H ρ = some ρ') (hx : x ∉ stm.binds) : ρ'.scalars x = ρ.scalars x := by
  cases stm with
  | compute name type value =>
    simp only [eval, Option.bind_eq_bind, Option.bind_eq_some_iff, Option.pure_def, Option.some.injEq] at h
    obtain ⟨v, -, rfl⟩ := h
    exact Scope.set_of_ne fun e => hx (by simp [binds, e])
  | index name type array is =>
    simp only [eval, Option.bind_eq_bind, Option.bind_eq_some_iff, Option.pure_def, Option.some.injEq] at h
    obtain ⟨iv, -, v, -, -, -, rfl⟩ := h
    exact Scope.set_of_ne fun e => hx (by simp [binds, e])
  | arrayLit name type elems =>
    simp only [eval, Option.bind_eq_bind, Option.bind_eq_some_iff, Option.pure_def, Option.some.injEq] at h
    obtain ⟨vs, -, rfl⟩ := h
    rfl
  | nested pattern op => cases h

theorem scalars_of_evalAll {x : Ident} : ∀ {stms : List BodyStm} {ρ : Env}, evalAll H ρ stms = some ρ' →
    (∀ stm ∈ stms, x ∉ stm.binds) → ρ'.scalars x = ρ.scalars x
  | [], _, h, _ => by
    cases h
    rfl
  | stm :: stms, ρ, h, hx => by
    obtain ⟨ρ₁, h₁, h⟩ := evalAll_cons_eq_some.mp h
    rw [scalars_of_evalAll h fun stm' hstm => hx stm' (List.mem_cons_of_mem stm hstm),
      scalars_of_eval h₁ (hx stm List.mem_cons_self)]

/-- The name of a small array. -/
def literal? : BodyStm → Option Ident
  | arrayLit name .. => some name
  | _ => none

theorem arrays_of_eval {x : Ident} (h : stm.eval H ρ = some ρ') (hx : x ∉ stm.literal?) : ρ'.arrays x = ρ.arrays x := by
  cases stm with
  | compute name type value =>
    simp only [eval, Option.bind_eq_bind, Option.bind_eq_some_iff, Option.pure_def, Option.some.injEq] at h
    obtain ⟨v, -, rfl⟩ := h
    rfl
  | index name type array is =>
    simp only [eval, Option.bind_eq_bind, Option.bind_eq_some_iff, Option.pure_def, Option.some.injEq] at h
    obtain ⟨iv, -, v, -, -, -, rfl⟩ := h
    rfl
  | arrayLit name type elems =>
    simp only [eval, Option.bind_eq_bind, Option.bind_eq_some_iff, Option.pure_def, Option.some.injEq] at h
    obtain ⟨vs, -, rfl⟩ := h
    exact if_neg fun e => hx (by simp [literal?, e])
  | nested pattern op => cases h

theorem arrays_of_evalAll {x : Ident} : ∀ {stms : List BodyStm} {ρ : Env}, evalAll H ρ stms = some ρ' →
    (∀ stm ∈ stms, x ∉ stm.literal?) → ρ'.arrays x = ρ.arrays x
  | [], _, h, _ => by
    cases h
    rfl
  | stm :: stms, ρ, h, hx => by
    obtain ⟨ρ₁, h₁, h⟩ := evalAll_cons_eq_some.mp h
    rw [arrays_of_evalAll h fun stm' hstm => hx stm' (List.mem_cons_of_mem stm hstm),
      arrays_of_eval h₁ (hx stm List.mem_cons_self)]

end BodyStm

/-! ### Maps that keep to their names -/

/-- Each name of a map has one meaning. The space has different names for its indices; what the map binds is
    no scalar of the host, and no index is bound again; no value is computed from the variable that gets it;
    and no small array has the name of a destination. Destinations are not read. -/
structure Segmented.Regular (op : SegOp) (env : HostEnv) (pattern : List PatElem) : Prop where
  nodup : op.space.names.Nodup
  unknown : ∀ x ∈ op.names, ¬env.Known x
  indices : ∀ stm ∈ op.stms, ∀ x ∈ stm.binds, x ∉ op.space.indices
  plain : ∀ stm ∈ op.stms, stm.Plain (· ∉ pattern.map (·.name))
  literals : ∀ stm ∈ op.stms, ∀ x ∈ stm.literal?, x ∉ pattern.map (·.name)
  names : ∀ x ∈ op.names, ¬Generated x
  hostNames : ∀ x, env.HasName x → ¬Generated x

/-- What the names of a map must be for its code to be on its own: the space has different names for its
    indices, what the map binds is no scalar of the host, and neither it nor the host has a name of the form of
    those that are taken for a kernel. -/
structure Segmented.WellNamed (op : SegOp) (env : HostEnv) : Prop where
  nodup : op.space.names.Nodup
  unknown : ∀ x ∈ op.names, ¬env.Known x
  names : ∀ x ∈ op.names, ¬Generated x
  hostNames : ∀ x, env.HasName x → ¬Generated x

/-- What is known at a point when the body is over is known under names of the map and of the host. -/
theorem Segmented.WellNamed.scalars_eq_none {op : SegOp} {H : Surroundings} {ds : List Nat} {f : Nat} {ρ : Env}
    (h : op.WellNamed H.env) (hρ : BodyStm.evalAll H (op.start H ds f) op.stms = some ρ) {x : Ident}
    (hx : Generated x) :
    ρ.scalars x = none := by
  have hgen : ∀ y ∈ op.names, y ≠ x := fun y hy e => h.names y hy (e ▸ hx)
  have hspace : ∀ y ∈ op.space.names, y ≠ x := fun y hy => hgen y (List.mem_append_left _ hy)
  rw [BodyStm.scalars_of_evalAll hρ fun stm hstm hbind =>
    hgen x (List.mem_append_right _ (List.mem_flatMap.mpr ⟨stm, hstm, hbind⟩)) rfl]
  unfold Segmented.start IterationSpace.pointScope
  dsimp only
  rw [Scope.sets_of_not_mem fun e he => hspace e.1 (List.mem_cons_of_mem _ (List.of_mem_zip he).1),
    Scope.set_of_ne (hspace _ List.mem_cons_self)]
  exact Surroundings.scope_eq_none fun hknown => h.hostNames x (hknown.imp (fun h => h) Or.inl) hx

theorem Segmented.Regular.wellNamed {op : SegOp} {env : HostEnv} {pattern : List PatElem} (h : op.Regular env pattern) :
    op.WellNamed env := ⟨h.nodup, h.unknown, h.names, h.hostNames⟩

/-- A map over a space of some extents that has room in its destinations. -/
structure Segmented.Fitting (op : SegOp) (H : Surroundings) (pattern : List PatElem) (ds : List Nat) (limit : Nat) :
    Prop where
  regular : op.Regular H.env pattern
  extents : List.Forall₂ (IsInt H.scope) op.space.dimExps (ints ds)
  positive : ∀ d ∈ ds, 0 < d
  sizes : ∀ (array : Ident) (type : ScalarType) (shape : List Operand) (es : List Int),
    H.env.arrays[array]? = some (type, shape) → Exp.intsAt? H.scope (shape.map Operand.toExp) = some es → Fits es.prod
  placed : ∀ f < ds.prod, ∀ ρ, BodyStm.evalAll H (op.start H ds f) op.stms = some ρ →
    ∀ r ∈ pattern.zip op.results, ∀ type shape, H.env.arrays[r.1.name]? = some (type, shape) →
      r.2.Placed H limit ds ρ shape

/-- A map over a space of some extents whose results have places in their destinations, concatenated ones too. -/
structure Segmented.Housed (op : SegOp) (H : Surroundings) (pattern : List PatElem) (ds : List Nat) (limit : Nat) :
    Prop where
  regular : op.Regular H.env pattern
  extents : List.Forall₂ (IsInt H.scope) op.space.dimExps (ints ds)
  positive : ∀ d ∈ ds, 0 < d
  sizes : ∀ (array : Ident) (type : ScalarType) (shape : List Operand) (es : List Int),
    H.env.arrays[array]? = some (type, shape) → Exp.intsAt? H.scope (shape.map Operand.toExp) = some es → Fits es.prod
  lodged : ∀ f < ds.prod, ∀ ρ, BodyStm.evalAll H (op.start H ds f) op.stms = some ρ →
    ∀ r ∈ pattern.zip op.results, ∀ type shape, H.env.arrays[r.1.name]? = some (type, shape) →
      r.2.Lodged H limit op.space.flat ds f ρ shape

theorem Segmented.Fitting.housed {op : SegOp} {H : Surroundings} {pattern : List PatElem} {ds : List Nat} {limit : Nat}
    (h : op.Fitting H pattern ds limit) : op.Housed H pattern ds limit :=
  ⟨h.regular, h.extents, h.positive, h.sizes, fun f hf ρ hρ r hr type shape hshape =>
    (h.placed f hf ρ hρ r hr type shape hshape).lodged⟩

namespace BodyResult
variable {H : Surroundings} {ρ : Env} {dest : Ident} {type : ScalarType} {f : Nat} {ws : List Write}

/-- A result is written to its own destination. -/
theorem slot_of_writesTo {result : BodyResult} (h : result.writesTo ρ dest type f = some ws) :
    ∀ w ∈ ws, w.slot.space = .global ∧ w.slot.array = dest := by
  -- A result of a thread is one value, a small array, or writes to places of its own.
  cases result with
  | returns value =>
    unfold writesTo at h
    cases hvalue : ρ.array? value with
    | none =>
      simp only [hvalue, Option.bind_eq_bind, Option.bind_eq_some_iff, Option.pure_def, Option.some.injEq] at h
      obtain ⟨v, -, rfl⟩ := h
      simp
    | some vs =>
      simp only [hvalue] at h
      split at h
      · cases h
        intro w hw
        obtain ⟨k, hk, rfl⟩ := List.mem_mapIdx.mp hw
        exact ⟨rfl, rfl⟩
      · cases h
  | write extents writes =>
    simp only [writesTo, Option.bind_eq_bind, Option.bind_eq_some_iff, Option.pure_def, Option.some.injEq] at h
    obtain ⟨es, -, written, hwritten, rfl⟩ := h
    intro w hw
    obtain ⟨place, -, hplace⟩ := exists_of_mem_mapM hwritten (List.reduceOption_mem_iff.mp hw)
    simp only [scattered, Option.bind_eq_bind, Option.bind_eq_some_iff] at hplace
    obtain ⟨is, -, hplace⟩ := hplace
    split at hplace
    · simp only [Option.bind_eq_some_iff, Option.pure_def, Option.some.injEq] at hplace
      obtain ⟨v, -, rfl⟩ := hplace
      exact ⟨rfl, rfl⟩
    · cases hplace
  | tile tiles array => cases h
  | concat split perThread array => cases h

theorem slot_of_storesTo {shape : List Operand} {result : BodyResult}
    (h : result.storesTo H ρ dest type shape f = some ws) :
    ∀ w ∈ ws, w.slot.space = .global ∧ w.slot.array = dest := by
  rcases writesTo_of_storesTo h with h | ⟨split, perThread, array, rfl⟩
  · exact slot_of_writesTo h
  · obtain ⟨es, p, place, t, vs, -, -, -, -, -, -, rfl⟩ := storesTo_concat_eq_some.mp h
    intro w hw
    obtain ⟨j, v, -, -, -, rfl⟩ := mem_concatenated.mp hw
    exact ⟨rfl, rfl⟩

end BodyResult

/-! ### A point -/

/-- What is stored at the point at a position; past the end of the space there is none. -/
def Segmented.visit (op : SegOp) (H : Surroundings) (pattern : List PatElem) (ds : List Nat) (f : Nat) : List Write :=
  if f < ds.prod then (op.storesAt H pattern ds f).getD [] else []

/-- The code of a body with its results, made when names were taken up to a number. -/
structure Segmented.Compiled (op : SegOp) (setting : Setting) (pattern : List PatElem) (n : Nat) (body results : Stmt) :
    Prop where
  codes : ∃ launch scope s s₁ s₂, n ≤ s.names ∧
    BodyStm.threadBody { launch, span := op.span } op.stms setting s = .ok ((body, scope), s₁) ∧
    scope.threadResults op.space (pattern.zip op.results) setting s₁ = .ok (results, s₂)

namespace Solo
variable {E : Solo} {H : Surroundings} {op : SegOp} {pattern : List PatElem} {ds : List Nat} {B : Scope} {th : Thread}
  {ws : List Write} {Q : Claim} {setting : Setting} {n f : Nat} {body results : Stmt}

/-- The thread may make some writes to the arrays that the host declares. -/
def Permits (E : Solo) (env : HostEnv) (ws : List Write) : Prop :=
  ∀ w ∈ ws, ∀ type shape, env.arrays[w.slot.array]? = some (type, shape) →
    E.store.Reaches ⟨w.slot.array, type, .global, false⟩ w.slot.position ∧ E.own E.id w.slot

/-- The code of a point makes the writes of the point, after others to arrays that the body does not read. The thread
    knows then what the body knows. -/
theorem ensures_results {reads : Ident → Prop} {past : List Write} {ρ : Env} (hop : op.WellNamed H.env)
    (hplain : ∀ stm ∈ op.stms, stm.Plain reads)
    (hliterals : ∀ stm ∈ op.stms, ∀ x ∈ stm.literal?, x ∉ pattern.map (·.name))
    (hlodged : ∀ r ∈ pattern.zip op.results, ∀ type shape, H.env.arrays[r.1.name]? = some (type, shape) →
      r.2.Lodged H E.ctx.loopLimit op.space.flat ds f ρ shape)
    (henv : setting.env = H.env) (C : op.Compiled setting pattern n body results) (hsees : E.Sees H B reads)
    (hpast : ∀ w ∈ past, ¬reads w.slot.array) (hB : B.Before n) (hnew : ∀ stm ∈ op.stms, ∀ x ∈ stm.binds, B x = none)
    (hindices : List.Forall₂ (IsInt B) op.space.indexExps (ints (coords ds f))) (hf : f < ds.prod)
    (hρ : BodyStm.evalAll H (op.start H ds f) op.stms = some ρ) (hws : op.storesAt H pattern ds f = some ws)
    (hpermits : E.Permits H.env ws) (hk : E.Knows B (op.start H ds f) th)
    (h : ∀ th', E.Knows B ρ th' → Q th' (past ++ ws)) : E.EnsuresAll [body, results] Q th past := by
  obtain ⟨launch, scope, s, s₁, s₂, hn, hbody, hresults⟩ := C.codes
  simp only [BodyStm.threadBody, Lowering.bind_eq_ok, Lowering.pure_eq_ok] at hbody
  obtain ⟨⟨code, scope₁⟩, _, hcode, he, rfl⟩ := hbody
  cases he
  simp only [BodyScope.threadResults, Lowering.bind_eq_ok, Lowering.pure_eq_ok] at hresults
  obtain ⟨codes, _, hcodes, rfl, rfl⟩ := hresults
  simp only [Segmented.storesAt, hρ, Option.bind_eq_bind, Option.bind_some, Option.bind_eq_some_iff, Option.pure_def,
    Option.some.injEq] at hws
  obtain ⟨written, hwritten, rfl⟩ := hws
  have hstart : (op.start H ds f).Matches { launch, span := op.span } := fun _ => rfl
  have htyped : (op.start H ds f).Typed := by
    intro x type values hx
    simp [Segmented.start] at hx
  obtain ⟨rfl, hm, htyped'⟩ := matches_of_codeAll hcode hρ hplain hstart.on htyped
  have hρ' : ρ.scalars.Before n := fun x hx => hop.scalars_eq_none hρ hx.generated
  -- A destination is never a small array of the body, since no literal has its name.
  have hnames : ∀ r ∈ pattern.zip op.results, ρ.arrays r.1.name = none := by
    intro r hr
    rw [BodyStm.arrays_of_evalAll hρ fun stm hstm hlit =>
      hliterals stm hstm _ hlit (List.mem_map_of_mem (List.of_mem_zip hr).1)]
    rfl
  rw [ensuresAll_cons, ensuresAll_singleton, ensures_block]
  refine ensures_codeAll hsees henv hpast hcode hρ hplain hnew hstart.on htyped hk fun th' hk' => ?_
  rw [ensures_block]
  refine ensures_threadResults henv hm.all htyped' hsees.host hindices hf hcodes hwritten (hB.mono hn) (hρ'.mono hn)
    hnames hlodged (fun r hr type shape ws hr' hws w hw => ?_) hk' h
  obtain ⟨-, hslot⟩ := BodyResult.slot_of_storesTo hws w hw
  have hmem : w ∈ written.flatten := by
    obtain ⟨ws', hmem, hws'⟩ := mem_of_mapM hwritten hr
    have he : BodyResult.storesOn H ρ f r = some ws := by
      simp [BodyResult.storesOn, hr', hws]
    exact List.mem_flatten.mpr ⟨ws', hmem, Option.some.inj (he.symm.trans hws') ▸ hw⟩
  have := hpermits w hmem type shape (by rw [hslot]; exact hr')
  rwa [hslot] at this

/-- At a point the thread makes the writes of the point. -/
theorem ensures_body (F : op.Housed H pattern ds E.ctx.loopLimit) (henv : setting.env = H.env)
    (C : op.Compiled setting pattern n body results) (hsees : E.Sees H B (· ∉ pattern.map (·.name))) (hB : B.Before n)
    (hnew : ∀ stm ∈ op.stms, ∀ x ∈ stm.binds, B x = none)
    (hindices : List.Forall₂ (IsInt B) op.space.indexExps (ints (coords ds f))) (hf : f < ds.prod)
    (hws : op.storesAt H pattern ds f = some ws) (hpermits : E.Permits H.env ws) (hk : E.Knows B (op.start H ds f) th)
    (h : ∀ th', B.Le (E.scope th') → Q th' ws) : E.Ensures (.block [body, results]) Q th [] := by
  obtain ⟨ρ, hρ, -⟩ := Option.bind_eq_some_iff.mp hws
  rw [ensures_block]
  refine ensures_results F.regular.wellNamed F.regular.plain F.regular.literals (F.lodged f hf ρ hρ) henv C hsees
    (by simp) hB
    hnew hindices hf hρ hws hpermits hk fun th' hk' => ?_
  rw [List.nil_append]
  exact h th' hk'.base

/-- The thread computes the indices of its point, and runs some code if there is one. The indices are divided by
    the extents after the first one, before it is tested whether there is a point. -/
theorem ensures_guarded {space : IterationSpace} {code : Stmt} (hspace : space.names.Nodup)
    (hextents : List.Forall₂ (IsInt B) space.dimExps (ints ds)) (hpos : ∀ d ∈ ds.tail, 0 < d)
    (htail : Fits ds.tail.prod) (hfits : Fits ds.prod) (hnew : ∀ x ∈ space.names, B x = none) {position : Exp}
    {coverage : Coverage} (hposition : IsInt B position f) (hfull : coverage = .full → f < ds.prod)
    (hbase : B.Le (E.scope th))
    (hin : f < ds.prod → ∀ th', ((B.set space.flat (.i64 (Int64.ofNat f))).sets
      (space.indices.zip (indexValues (coords ds f)))).Le (E.scope th') → E.Ensures code Q th' ws)
    (hout : ds.prod ≤ f → ∀ th', B.Le (E.scope th') → Q th' ws) :
    E.EnsuresAll [.declareInit space.flat .i64 position, .unflatten space.extents (.var space.flat),
      .when (if coverage = .full then .bool true else (Exp.var space.flat).lt space.size) code] Q th ws := by
  obtain ⟨hflat, hindex⟩ := List.forall_mem_cons.mp hnew
  obtain ⟨hnotin, -⟩ := List.nodup_cons.mp hspace
  have hne : ∀ i ∈ space.indices, space.flat ≠ i := fun i hi e => hnotin (e ▸ hi)
  rw [ensuresAll_cons, ensuresAll_cons, ensuresAll_singleton]
  refine ensures_declareInit_apart hbase hbase hflat hposition.eval_nat rfl fun th₁ hσ₁ _ _ => ?_
  -- The flat index is known while the other indices are computed from it.
  have hvalue : IsInt (B.set space.flat (.i64 (Int64.ofNat f))) (.var space.flat) f :=
    .var_nat Scope.set_self hposition.fits
  have hknown : List.Forall₂ (fun d (k : Nat) => IsInt (B.set space.flat (.i64 (Int64.ofNat f))) d.2 k)
    space.extents ds := by
    have := List.forall₂_map_right_iff.mp (List.forall₂_map_left_iff.mp hextents)
    exact List.forall₂_map_left_iff.mpr (this.imp fun d k hd => hd.mono (Scope.le_set hflat))
  have hnames : space.extents.map (·.1) = space.indices := by
    simp [IterationSpace.extents, IterationSpace.indices]
  have hunknown : ∀ d ∈ space.extents, B.set space.flat (.i64 (Int64.ofNat f)) d.1 = none := by
    intro d hd
    have hi : d.1 ∈ space.indices := hnames ▸ List.mem_map_of_mem hd
    rw [Scope.set_of_ne (hne _ hi), hindex _ hi]
  refine ensures_unflatten hσ₁ hσ₁ hvalue hknown hpos htail hunknown fun th₂ hσ₂ _ _ => ?_
  rw [hnames] at hσ₂
  have hadd : (B.set space.flat (.i64 (Int64.ofNat f))).Le
      ((B.set space.flat (.i64 (Int64.ofNat f))).sets (space.indices.zip (indexValues (coords ds f)))) := by
    refine (Scope.Le.refl _).sets_right fun e he => ?_
    have hi := (List.of_mem_zip he).1
    rw [Scope.set_of_ne (hne _ hi), hindex _ hi]
  have hguard : IsBool (E.scope th₂) (if coverage = .full then .bool true else (Exp.var space.flat).lt space.size)
      (decide (f < ds.prod)) := by
    by_cases hc : coverage = .full
    · rw [if_pos hc, decide_eq_true (hfull hc)]
      exact IsBool.bool true
    · rw [if_neg hc]
      have hsize : IsInt B space.size ds.prod := isInt_product (List.forall₂_map_right_iff.mp hextents) hfits
      have := IsBool.lt (hvalue.mono (hadd.trans hσ₂)) (hsize.mono ((Scope.le_set hflat).trans (hadd.trans hσ₂)))
      rwa [decide_eq_decide.mpr Int.ofNat_lt] at this
  refine ensures_when hguard (fun hb => hin (of_decide_eq_true hb) th₂ hσ₂) fun hb => ?_
  exact hout (Nat.le_of_not_lt (of_decide_eq_false hb)) th₂ ((Scope.le_set hflat).trans (hadd.trans hσ₂))

/-- The thread computes the indices of its point and visits it. -/
theorem ensures_point (F : op.Housed H pattern ds E.ctx.loopLimit) (hfits : Fits ds.prod) (henv : setting.env = H.env)
    (C : op.Compiled setting pattern n body results) (hsees : E.Sees H B (· ∉ pattern.map (·.name))) (hB : B.Before n)
    (hnew : ∀ x ∈ op.names, B x = none) {position : Exp} {coverage : Coverage} (hposition : IsInt B position f)
    (hfull : coverage = .full → f < ds.prod) (hws : ∀ f < ds.prod, (op.storesAt H pattern ds f).isSome)
    (hpermits : E.Permits H.env (op.visit H pattern ds f)) (hbase : B.Le (E.scope th))
    (h : ∀ th', B.Le (E.scope th') → Q th' (op.visit H pattern ds f)) :
    E.EnsuresAll [.declareInit op.space.flat .i64 position, .unflatten op.space.extents (.var op.space.flat),
      .when (if coverage = .full then .bool true else (Exp.var op.space.flat).lt op.space.size)
        (.block [body, results])]
      Q th [] := by
  have hspace : ∀ x ∈ op.space.names, B x = none := fun x hx => hnew x (List.mem_append_left _ hx)
  obtain ⟨hflat, hindex⟩ := List.forall_mem_cons.mp hspace
  refine ensures_guarded F.regular.nodup (F.extents.imp fun _ _ hd => hd.mono hsees.host)
    (fun d hd => F.positive d (List.mem_of_mem_tail hd)) (fits_prod_tail F.positive hfits)
      hfits hspace hposition hfull hbase
    (fun hf th₂ hσ₂ => ?_) fun hf th₂ hσ₂ => ?_
  · obtain ⟨ws, hws⟩ := Option.isSome_iff_exists.mp (hws f hf)
    have hvisit : op.visit H pattern ds f = ws := by rw [Segmented.visit, if_pos hf, hws, Option.getD_some]
    rw [hvisit] at hpermits h
    have hcoords : ∀ i ∈ coords ds f, Fits (i : Nat) := by
      have hds := ((List.forall₂_and_left _ _).mp (F.extents.flip.imp fun _ _ hd => ⟨IsInt.fits hd, hd⟩)).1
      exact fits_coords (fun d hd => hds d (List.mem_map_of_mem hd)) hf
    have hindices := isInts_sets (σ := B) (List.nodup_cons.mp F.regular.nodup).2
      (by rw [length_coords]; simpa [IterationSpace.dimExps, IterationSpace.indices] using F.extents.length_eq) hcoords
    -- The names of the space were unknown, so that indices hide nothing of the host.
    have hentries : ∀ e ∈ op.space.indices.zip (indexValues (coords ds f)), e.1 ∈ op.space.indices := fun e he =>
      (List.of_mem_zip he).1
    have hadd : B.Le (B.sets (op.space.indices.zip (indexValues (coords ds f)))) :=
      (Scope.Le.refl B).sets_right fun e he => hindex _ (hentries e he)
    have hbase₂ := ((Scope.le_set hflat).sets (op.space.indices.zip (indexValues (coords ds f)))).trans hσ₂
    have hstart := (hsees.host.set.sets (op.space.indices.zip (indexValues (coords ds f)))).trans hσ₂
    refine ensures_body F henv C ⟨hsees.host.trans hadd, hsees.memory, hsees.keeps, hsees.fits⟩
      (hB.sets fun e he hnew => ?_)
      (fun stm hstm x hx => ?_) (by simpa [IterationSpace.indexExps, IterationSpace.indices] using hindices)
        hf hws hpermits
      ⟨hbase₂, hstart, fun _ _ _ hx => nomatch hx⟩ fun th' hb => h th' (hadd.trans hb)
    · exact F.regular.names _ (List.mem_append_left _ (List.mem_cons_of_mem _ (hentries e he))) hnew.generated
    · have hother : ∀ e ∈ op.space.indices.zip (indexValues (coords ds f)), e.1 ≠ x := fun e he hx' =>
        F.regular.indices stm hstm x hx (hx' ▸ hentries e he)
      rw [Scope.sets_of_not_mem hother]
      exact hnew x (List.mem_append_right _ (List.mem_flatMap.mpr ⟨stm, hstm, hx⟩))
  · have hvisit : op.visit H pattern ds f = [] := if_neg (Nat.not_lt.mpr hf)
    rw [hvisit] at h
    exact h th₂ hσ₂

end Solo

end SegKernel
