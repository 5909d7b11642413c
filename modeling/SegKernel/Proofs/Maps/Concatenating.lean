import SegKernel.Proofs.Maps.Launches

/-! Concatenated results. The parts of the points, of the same number of elements each, go to the destination
    one after another, or in turn, as far as the destination reaches. All places are different, so
    the destination holds the elements at their places in the end, and its other elements stay. -/

namespace SegKernel
open Exp

/-! ### Places -/

/-- Where a split puts element `j` of the part of `p` elements of point `t`, if there are `n` points: the parts lie one
    after another, or the elements of a part lie `n` or more places apart. -/
def Split.Places (σ : Scope) (p n : Nat) (place : Nat → Nat → Nat) : Split → Prop
  | contiguous => ∀ t j, place t j = t * p + j
  | strided stride => ∃ s : Nat, n ≤ s ∧ IsInt σ stride.toExp s ∧ ∀ t j, place t j = t + j * s

namespace Split.Places
variable {σ : Scope} {split : Split} {p n t t' j j' : Nat} {place : Nat → Nat → Nat}

theorem place?_eq (h : split.Places σ p n place) (t : Nat) : split.place? σ p t = some (place t) := by
  cases split with
  | contiguous => exact congrArg some (funext fun j => (h t j).symm)
  | strided stride =>
    obtain ⟨s, -, hs, hplace⟩ := h
    have same : (fun j => t + j * s) = place t := funext fun j => (hplace t j).symm
    simp [Split.place?, intAt?_eq_some.mpr hs, same]

/-- No two elements have the same place. -/
theorem injective (h : split.Places σ p n place) (ht : t < n) (ht' : t' < n) (hj : j < p) (hj' : j' < p)
    (e : place t j = place t' j') : t = t' ∧ j = j' := by
  -- The part and the element are the quotient and the remainder of a place, or the other way round.
  have split_mul : ∀ {k i i' q q' : Nat}, i < k → i' < k → i + k * q = i' + k * q' → q = q' ∧ i = i' := by
    intro k i i' q q' hi hi' e
    have hq := congrArg (· / k) e
    have hr := congrArg (· % k) e
    simp only [Nat.add_mul_div_left _ _ (Nat.zero_lt_of_lt hi), Nat.div_eq_of_lt hi, Nat.div_eq_of_lt hi',
      Nat.zero_add] at hq
    simp only [Nat.add_mul_mod_self_left, Nat.mod_eq_of_lt hi, Nat.mod_eq_of_lt hi'] at hr
    exact ⟨hq, hr⟩
  cases split with
  | contiguous =>
    rw [h t j, h t' j'] at e
    exact split_mul hj hj' (by rwa [Nat.add_comm j, Nat.add_comm j', Nat.mul_comm p, Nat.mul_comm p])
  | strided stride =>
    obtain ⟨s, hle, -, hplace⟩ := h
    rw [hplace, hplace] at e
    rw [Nat.mul_comm j, Nat.mul_comm j'] at e
    exact (split_mul (Nat.lt_of_lt_of_le ht hle) (Nat.lt_of_lt_of_le ht' hle) e).symm

end Split.Places

/-! ### Results that settle -/

theorem exists_mapM {α β : Type} {f : α → Option β} : ∀ {xs : List α}, (∀ x ∈ xs, ∃ y, f x = some y) →
    ∃ ys, xs.mapM f = some ys
  | [], _ => ⟨[], List.mapM_nil⟩
  | x :: xs, h => by
    obtain ⟨y, hy⟩ := h x List.mem_cons_self
    obtain ⟨ys, hys⟩ := exists_mapM fun x' hx' => h x' (List.mem_cons_of_mem x hx')
    exact ⟨y :: ys, by simp [List.mapM_cons, hy, hys]⟩

namespace Segmented
variable {op : SegOp} {H : Surroundings} {pattern : List PatElem} {ds : List Nat} {limit f f' : Nat}
  {r : PatElem × BodyResult} {ws ws' : List Write} {w w' : Write}

/-- What one result of a map stores at the point at a row-major position. -/
def storesOf (op : SegOp) (H : Surroundings) (ds : List Nat) (r : PatElem × BodyResult) (f : Nat) :
    Option (List Write) := do
  let ρ ← BodyStm.evalAll H (op.start H ds f) op.stms
  BodyResult.storesOn H ρ f r

theorem storesOf_eq_some : op.storesOf H ds r f = some ws ↔
    ∃ ρ, BodyStm.evalAll H (op.start H ds f) op.stms = some ρ ∧ BodyResult.storesOn H ρ f r = some ws :=
    Option.bind_eq_some_iff

/-- Each point stores what its results store. -/
theorem mem_visit_iff (hws : op.storesAt H pattern ds f = some ws) (hf : f < ds.prod) :
    w ∈ op.visit H pattern ds f ↔ ∃ r ∈ pattern.zip op.results, ∃ ws, op.storesOf H ds r f = some ws ∧ w ∈ ws := by
  rw [visit, if_pos hf, hws, Option.getD_some]
  simp only [storesAt, Option.bind_eq_bind, Option.bind_eq_some_iff, Option.pure_def, Option.some.injEq] at hws
  obtain ⟨ρ, hρ, written, hwritten, rfl⟩ := hws
  have result : ∀ r out, op.storesOf H ds r f = some out ↔ BodyResult.storesOn H ρ f r = some out := fun r out => by
    rw [storesOf, hρ]
    rfl
  rw [List.mem_flatten]
  constructor
  · rintro ⟨out, hout, hw⟩
    obtain ⟨r, hr, hrout⟩ := exists_of_mem_mapM hwritten hout
    exact ⟨r, hr, out, (result r out).mpr hrout, hw⟩
  · rintro ⟨r, hr, out, hout, hw⟩
    obtain ⟨out', hout', e⟩ := mem_of_mapM hwritten hr
    obtain rfl : out = out' := Option.some.inj (((result r out).mp hout).symm.trans e)
    exact ⟨out, hout', hw⟩

theorem slot_of_mem_storesOf (h : op.storesOf H ds r f = some ws) (hw : w ∈ ws) :
    w.slot.space = .global ∧ w.slot.array = r.1.name := by
  obtain ⟨ρ, -, h⟩ := storesOf_eq_some.mp h
  simp only [BodyResult.storesOn, Option.bind_eq_bind, Option.bind_eq_some_iff] at h
  obtain ⟨⟨type, shape⟩, -, h⟩ := h
  exact BodyResult.slot_of_storesTo h w hw

/-- A map whose names have one meaning each, over a space of some extents. Each result has a destination of its own. -/
structure Spread (op : SegOp) (H : Surroundings) (pattern : List PatElem) (ds : List Nat) : Prop where
  regular : op.Regular H.env pattern
  extents : List.Forall₂ (IsInt H.scope) op.space.dimExps (ints ds)
  positive : ∀ d ∈ ds, 0 < d
  fits : Fits (ds.prod : Nat)
  sizes : ∀ (array : Ident) (type : ScalarType) (shape : List Operand) (es : List Int),
    H.env.arrays[array]? = some (type, shape) → Exp.intsAt? H.scope (shape.map Operand.toExp) = some es → Fits es.prod
  destinations : (pattern.map (·.name)).Nodup

/-- A result of a map has places in its destination. The points store to different elements of it. -/
structure Settles (op : SegOp) (H : Surroundings) (ds : List Nat) (limit : Nat) (r : PatElem × BodyResult) : Prop where
  lodged : ∀ f < ds.prod, ∀ ρ, BodyStm.evalAll H (op.start H ds f) op.stms = some ρ → ∀ type shape,
    H.env.arrays[r.1.name]? = some (type, shape) → r.2.Lodged H limit op.space.flat ds f ρ shape
  stored : ∀ f < ds.prod, ∃ ws, op.storesOf H ds r f = some ws
  apart : ∀ {f f' : Nat} {ws ws' : List Write} {w w' : Write}, f < ds.prod → f' < ds.prod →
    op.storesOf H ds r f = some ws →
    op.storesOf H ds r f' = some ws' → w ∈ ws → w' ∈ ws' → w.slot = w'.slot → f = f' ∧ w = w'
  room : ∀ f < ds.prod, ∀ ws, op.storesOf H ds r f = some ws → ∀ w ∈ ws, ∀ type shape,
    H.env.arrays[r.1.name]? = some (type, shape) →
      (Store.ofGlobal H.memory).Reaches ⟨r.1.name, type, .global, false⟩ w.slot.position

/-- A map whose results settle stores what they store. -/
theorem Spread.stores (h : op.Spread H pattern ds)
    (hbodies : ∀ f < ds.prod, ∃ ρ, BodyStm.evalAll H (op.start H ds f) op.stms = some ρ)
    (hresults : ∀ r ∈ pattern.zip op.results, op.Settles H ds limit r) :
    op.Stores H pattern ds limit ((List.range ds.prod).flatMap (op.visit H pattern ds)) := by
  have stored : ∀ f < ds.prod, ∃ ws, op.storesAt H pattern ds f = some ws := by
    intro f hf
    obtain ⟨ρ, hρ⟩ := hbodies f hf
    obtain ⟨written, hwritten⟩ : ∃ written,
      (pattern.zip op.results).mapM (BodyResult.storesOn H ρ f) = some written := by
      have each : ∀ r ∈ pattern.zip op.results, ∃ ws, BodyResult.storesOn H ρ f r = some ws := by
        intro r hr
        obtain ⟨ws, hws⟩ := (hresults r hr).stored f hf
        rw [storesOf, hρ] at hws
        exact ⟨ws, hws⟩
      exact exists_mapM each
    exact ⟨written.flatten, by rw [storesAt, hρ]; simp [hwritten]⟩
  have visited : ∀ {f w}, w ∈ op.visit H pattern ds f →
      f < ds.prod ∧ ∃ r ∈ pattern.zip op.results, ∃ ws, op.storesOf H ds r f = some ws ∧ w ∈ ws := by
    intro f w hw
    obtain ⟨hf, ws, hws, -⟩ := storesAt_of_mem_visit hw
    exact ⟨hf, (mem_visit_iff hws hf).mp hw⟩
  exact {
    housed := ⟨h.regular, h.extents, h.positive, h.sizes, fun f hf ρ hρ r hr => (hresults r hr).lodged f hf ρ hρ⟩
    fits := h.fits
    stored := fun f hf => Option.isSome_iff_exists.mpr (stored f hf)
    writes_eq := rfl
    apart := fun hw hw' hslot => by
      obtain ⟨hf, r, hr, ws, hws, hw⟩ := visited hw
      obtain ⟨hf', r', hr', ws', hws', hw'⟩ := visited hw'
      -- Two results write to different arrays.
      obtain rfl : r = r' := by
        refine mem_zip_inj h.destinations hr hr' ?_
        rw [← (slot_of_mem_storesOf hws hw).2, ← (slot_of_mem_storesOf hws' hw').2, hslot]
      exact (hresults r hr).apart hf hf' hws hws' hw hw' hslot
    room := fun w hw type shape hshape => by
      obtain ⟨f, -, hf⟩ := List.mem_flatMap.mp hw
      obtain ⟨hf, r, hr, ws, hws, hw⟩ := visited hf
      have harray := (slot_of_mem_storesOf hws hw).2
      rw [harray] at hshape ⊢
      exact (hresults r hr).room f hf ws hws w hw type shape hshape }

/-! ### Concatenated results -/

/-- A map concatenates the parts of its points to an array of `n` elements. Each part has `p` elements or more, of
    which the first `p` have places, which 64 bits can hold. The body does not bind the flat index, by which the
    places go. -/
structure Concatenates (op : SegOp) (H : Surroundings) (ds : List Nat) (limit : Nat) (dest : Ident) (split : Split)
    (perThread : Operand) (array : Ident) (n p : Nat) (place : Nat → Nat → Nat) (part : Nat → List Value) : Prop where
  flat : ∀ stm ∈ op.stms, op.space.flat ∉ stm.binds
  turns : p ≤ limit
  fits : ∀ t < ds.prod, ∀ j < p, Fits (place t j : Nat)
  declared : ∃ type shape es, H.env.arrays[dest]? = some (type, shape) ∧ H.extents? shape = some es ∧ es.prod = n ∧
    (Store.ofGlobal H.memory).layout? .global dest = some (type, n) ∧ ∀ t < ds.prod, ∀ v ∈ part t, v.type = type
  parts : ∀ t < ds.prod, ∃ ρ type, BodyStm.evalAll H (op.start H ds t) op.stms = some ρ ∧
    IsInt ρ.scalars perThread.toExp p ∧
    ρ.arrays array = some (type, part t) ∧ p ≤ (part t).length ∧ split.Places ρ.scalars p ds.prod place

namespace Concatenates
variable {dest array : Ident} {split : Split} {perThread : Operand} {n p : Nat} {place : Nat → Nat → Nat}
  {part : Nat → List Value} {e : PatElem}

/-- A point stores the elements of its part that have places in the destination. -/
theorem storesOf_eq (h : op.Concatenates H ds limit e.name split perThread array n p place part) (hf : f < ds.prod) :
    op.storesOf H ds (e, .concat split perThread array) f = some (concatenated e.name n (place f) p (part f)) := by
  obtain ⟨type, shape, es, hshape, hes, rfl, -, htypes⟩ := h.declared
  obtain ⟨ρ, t, hρ, hp, harray, hle, hplaces⟩ := h.parts f hf
  refine storesOf_eq_some.mpr ⟨ρ, hρ, ?_⟩
  rw [BodyResult.storesOn, hshape]
  exact BodyResult.storesTo_concat_eq_some.mpr
    ⟨es, p, place f, t, part f, hes, hp, hplaces.place?_eq f, harray, hle, htypes f hf, rfl⟩

theorem settles (h : op.Concatenates H ds limit e.name split perThread array n p place part)
    (hspread : op.Spread H pattern ds) :
    op.Settles H ds limit (e, .concat split perThread array) where
  lodged f hf ρ hρ type shape hshape := by
    obtain ⟨ρ', t, hρ', hp, harray, hle, hplaces⟩ := h.parts f hf
    obtain rfl : ρ = ρ' := Option.some.inj (hρ.symm.trans hρ')
    refine ⟨?_, fun es hes => ?_, fun q hq => ?_⟩
    · -- The flat index keeps the value that it has at the start.
      have hindices : ∀ e ∈ op.space.indices.zip (indexValues (coords ds f)), e.1 ≠ op.space.flat := fun e he hflat =>
        (List.nodup_cons.mp hspread.regular.nodup).1 (hflat ▸ (List.of_mem_zip he).1)
      refine .var_nat ?_ ?_
      · rw [BodyStm.scalars_of_evalAll hρ h.flat]
        exact (Scope.sets_of_not_mem hindices).trans Scope.set_self
      · have := hspread.fits
        unfold Fits at *
        omega
    · have := hspread.sizes e.name type shape (ints es) hshape
        (intsAt?_eq_some.mpr (Surroundings.extents?_eq_some.mp hes))
      rwa [prod_ints] at this
    · obtain rfl : q = p := by exact_mod_cast hq.unique hp
      refine ⟨h.turns, fun place' hplace' j hj => ?_⟩
      obtain rfl : place' = place f := Option.some.inj (hplace'.symm.trans (hplaces.place?_eq f))
      exact h.fits f hf j hj
  stored f hf := ⟨_, h.storesOf_eq hf⟩
  apart {f f' ws ws' w w'} hf hf' hws hws' hw hw' hslot := by
    rw [h.storesOf_eq hf] at hws
    rw [h.storesOf_eq hf'] at hws'
    cases hws
    cases hws'
    obtain ⟨j, v, hj, hv, -, rfl⟩ := mem_concatenated.mp hw
    obtain ⟨j', v', hj', hv', -, rfl⟩ := mem_concatenated.mp hw'
    obtain ⟨ρ, t, -, -, -, -, hplaces⟩ := h.parts f hf
    obtain ⟨rfl, rfl⟩ := hplaces.injective hf hf' hj hj' (congrArg Slot.position hslot)
    obtain rfl : v = v' := Option.some.inj (hv.symm.trans hv')
    exact ⟨rfl, rfl⟩
  room f hf ws hws w hw type shape hshape := by
    obtain ⟨type', shape', es, hshape', -, -, hlayout, -⟩ := h.declared
    obtain ⟨rfl, rfl⟩ : type' = type ∧ shape' = shape := Prod.mk.inj (Option.some.inj (hshape'.symm.trans hshape))
    rw [h.storesOf_eq hf] at hws
    cases hws
    obtain ⟨j, v, -, -, hlt, rfl⟩ := mem_concatenated.mp hw
    exact ⟨type', n, hlayout, rfl, hlt⟩

end Concatenates
end Segmented

namespace Device

/-- A device that runs the program of a map has the elements of all parts at their places in the end, as far as the
    destination reaches. The other elements of the destination are those of before. -/
theorem run_concatenated {m : Module} {config : Config} {prog : Program} {d : Device} {pattern : List PatElem}
    {op : SegOp} {ds : List Nat} {P G : Nat} {e : PatElem} {split : Split} {perThread : Operand} {array : Ident}
    {n p : Nat} {place : Nat → Nat → Nat} {part : Nat → List Value} (hm : m.ops = [.seg pattern op])
    (hlevel : op.grid.level = .thread) (hkind : op.kind = .map) (hprog : m.lower config = .ok prog)
    (hhost : (d.surroundings m.env prog).Complete) (hspread : op.Spread (d.surroundings m.env prog) pattern ds)
    (hmem : (e, .concat split perThread array) ∈ pattern.zip op.results)
    (hparts : op.Concatenates (d.surroundings m.env prog) ds d.loopLimit e.name split perThread array n p place part)
    (hothers : ∀ r ∈ pattern.zip op.results, r.1 ≠ e → op.Settles (d.surroundings m.env prog) ds d.loopLimit r)
    (hsized : op.Sized (d.surroundings m.env prog) P G) (hgrid : op.grid.coverage.Suffices ds.prod P G d.loopLimit) :
    ∃ stats d', d.run prog = (.ok stats, d') ∧
      (Store.ofGlobal d'.global).layout? .global e.name = (Store.ofGlobal d.global).layout? .global e.name ∧
      (∀ t < ds.prod, ∀ j < p, place t j < n →
        (Store.ofGlobal d'.global).bits? ⟨.global, e.name, place t j⟩ = (part t)[j]?.map Value.toBits) ∧
      ∀ i, (∀ t < ds.prod, ∀ j < p, place t j ≠ i) →
        (Store.ofGlobal d'.global).bits? ⟨.global, e.name, i⟩ =
          (Store.ofGlobal d.global).bits? ⟨.global, e.name, i⟩ := by
  have same : ∀ r ∈ pattern.zip op.results, r.1.name = e.name → r = (e, .concat split perThread array) :=
    fun r hr hname =>
    mem_zip_inj hspread.destinations hr hmem hname
  have results : ∀ r ∈ pattern.zip op.results, op.Settles (d.surroundings m.env prog) ds d.loopLimit r := by
    intro r hr
    by_cases hname : r.1 = e
    · exact same r hr (congrArg PatElem.name hname) ▸ hparts.settles hspread
    · exact hothers r hr hname
  have hstores := hspread.stores (fun f hf => (hparts.parts f hf).imp fun ρ h => h.choose_spec.1) results
  obtain ⟨-, stats, -, hrun, -⟩ := run_stores hm hlevel hkind hprog hhost hstores hsized hgrid
  have stored : ∀ {w}, w ∈ (List.range ds.prod).flatMap (op.visit (d.surroundings m.env prog) pattern ds) ↔
      ∃ t < ds.prod, ∃ r ∈ pattern.zip op.results, ∃ ws, op.storesOf (d.surroundings m.env prog) ds r t = some ws ∧
        w ∈ ws := by
    intro w
    rw [hstores.mem_iff]
    constructor
    · rintro ⟨t, hw⟩
      obtain ⟨ht, ws, hws, -⟩ := Segmented.storesAt_of_mem_visit hw
      exact ⟨t, ht, (Segmented.mem_visit_iff hws ht).mp hw⟩
    · rintro ⟨t, ht, hw⟩
      obtain ⟨ws, hws⟩ := Option.isSome_iff_exists.mp (hstores.stored t ht)
      exact ⟨t, (Segmented.mem_visit_iff hws ht).mpr hw⟩
  -- Of the list of all writes, only what is in it matters from here on.
  generalize (List.range ds.prod).flatMap (op.visit (d.surroundings m.env prog) pattern ds) = ws at *
  have spaces : ∀ w ∈ ws, w.slot.space = .global := fun w hw => by
    obtain ⟨t, -, r, -, ws, hws, hw⟩ := stored.mp hw
    exact (Segmented.slot_of_mem_storesOf hws hw).1
  refine ⟨stats, _, hrun, ?_, fun t ht j hj hlt => ?_, fun i hi => ?_⟩
  · rw [← Store.puts_ofGlobal spaces, Store.layout?_puts]
  · obtain ⟨ρ, type, -, -, -, hle, -⟩ := hparts.parts t ht
    have hvalue := List.getElem?_eq_getElem (Nat.lt_of_lt_of_le hj hle)
    have hw : (⟨⟨.global, e.name, place t j⟩, (part t)[j].toBits⟩ : Write) ∈ ws :=
      stored.mpr ⟨t, ht, _, hmem, _, hparts.storesOf_eq ht, mem_concatenated.mpr ⟨j, _, hj, hvalue, hlt, rfl⟩⟩
    obtain ⟨type, -, -, -, -, -, hlayout, -⟩ := hparts.declared
    have hreaches : (Store.ofGlobal d.global).Reaches ⟨e.name, type, .global, false⟩ (place t j) :=
      ⟨type, n, hlayout, rfl, hlt⟩
    obtain ⟨old, hold⟩ := Option.isSome_iff_exists.mp hreaches.isSome_bits?
    have hput := (Store.ofGlobal d.global).bits?_puts_of_mem hw fun w' hw' hslot => hstores.eq_of_slot hw' hw hslot
    rw [← Store.puts_ofGlobal spaces, hput, hold, hvalue]
    rfl
  · rw [← Store.puts_ofGlobal spaces]
    refine Store.bits?_puts_of_forall_ne fun w hw hslot => ?_
    obtain ⟨t, ht, r, hr, ws, hws, hw⟩ := stored.mp hw
    have hname : r.1.name = e.name := by rw [← (Segmented.slot_of_mem_storesOf hws hw).2, hslot]
    obtain rfl := same r hr hname
    rw [hparts.storesOf_eq ht] at hws
    cases hws
    obtain ⟨j, v, hj, -, -, rfl⟩ := mem_concatenated.mp hw
    exact hi t ht j hj (congrArg Slot.position hslot)

/-! ### Parts that are concatenated -/

/-- Two threads lay the elements of their parts three places apart. -/
def stridesOp : SegOp where
  kind := .map
  grid := ⟨.thread, .int 1, .int 2, .direct⟩
  space := ⟨"f", [("i", .int 2)]⟩
  stms := [.arrayLit "a" .i64 [.var "i", .int 20, .int 30]]
  results := [.concat (.strided (.int 3)) (.int 3) "a"]

def stridesEnv : HostEnv where
  arrays := ({} : Table _).insert "ys" (.i64, [.int 7])

def stridesMemory : Memory := ({} : Memory).insert "ys" (.ofValues .i64 (List.replicate 7 (.i64 9)))

def stridesHost : Surroundings := ⟨stridesEnv, (({} : Table Value)[·]?), stridesMemory⟩

def strides : Module := ⟨stridesEnv, [.seg [⟨"ys", .i64, [.int 7]⟩] stridesOp]⟩

theorem strides_arrays {x : Ident} {r : ScalarType × List Operand} (h : stridesEnv.arrays[x]? = some r) :
    x = "ys" ∧ r = (.i64, [.int 7]) := by
  unfold stridesEnv at h
  dsimp only at h
  rw [Table.getElem?_insert] at h
  split at h
  · exact ⟨by simp_all, (Option.some.inj h).symm⟩
  · simp at h

theorem strides_unknown (x : Ident) : ¬stridesEnv.Known x := by
  simp [HostEnv.Known, stridesEnv]

theorem strides_spread : Segmented.Spread stridesOp stridesHost [⟨"ys", .i64, [.int 7]⟩] [2] where
  regular := {
    nodup := by decide
    unknown := fun x _ => strides_unknown x
    indices := by decide
    plain := by simp [stridesOp, BodyStm.Plain, Fits]
    literals := by simp [stridesOp, BodyStm.literal?]
    names := fun x hx => not_generated (by revert x; decide)
    hostNames := fun x hx => by
      have known : x = "ys" := by
        rcases hx with h | h | h | ⟨array, type, shape, h, e, he, hx⟩
        · exact absurd (Or.inl h) (strides_unknown x)
        · exact absurd (Or.inr h) (strides_unknown x)
        · exact (strides_arrays (Std.ExtTreeMap.getElem?_eq_some_getElem h)).1
        · cases (strides_arrays h).2
          obtain rfl := List.mem_singleton.mp he
          simp [Operand.vars, Operand.int] at hx
      exact known ▸ not_generated (by decide) }
  extents := .cons (IsInt.int 2) .nil
  positive := by decide
  fits := by
    unfold Fits
    decide
  sizes array type shape es h hes := by
    cases (strides_arrays h).2
    have : es = [7] := Option.some.inj (hes.symm.trans (intsAt?_eq_some.mpr (.cons (IsInt.int 7) .nil)))
    subst this
    unfold Fits
    decide
  destinations := by decide

theorem strides_concatenates (limit : Nat) (hlimit : 3 ≤ limit) :
    Segmented.Concatenates stridesOp stridesHost [2] limit "ys" (.strided (.int 3)) (.int 3) "a" 7 3
      (fun t j => t + j * 3)
      (fun t => [.i64 (Int64.ofNat t), .i64 20, .i64 30]) where
  flat := by decide
  turns := hlimit
  fits t ht j hj := by
    have ht : t < 2 := ht
    have hj' : j * 3 < 9 := by omega
    show Fits ((t + j * 3 : Nat) : Int)
    unfold Fits
    omega
  declared := ⟨.i64, [.int 7], [7], by decide +kernel, by decide +kernel, by decide, by decide +kernel, by simp [Value.type]⟩
  parts t ht := by
    have ht : t < 2 := ht
    obtain ⟨ρ, hρ, harray⟩ : ∃ ρ, BodyStm.evalAll stridesHost (stridesOp.start stridesHost [2] t)
      stridesOp.stms = some ρ ∧
        ρ.arrays "a" = some (.i64, [.i64 (Int64.ofNat t), .i64 20, .i64 30]) := by
      rcases t with _ | _ | t
      · exact ⟨_, rfl, rfl⟩
      · exact ⟨_, rfl, rfl⟩
      · omega
    exact ⟨ρ, .i64, hρ, IsInt.int 3, harray, Nat.le_refl 3, 3, by decide, IsInt.int 3, fun _ _ => rfl⟩

/-- Six elements have places, of which the last lies past the end. -/
theorem strides_concatenated :
    let d : Device := { wave := 1, checkRaces := true, global := stridesMemory }
    ∃ p stats d', strides.lower {} = .ok p ∧ d.run p = (.ok stats, d') ∧
      (∀ t < 2, ∀ j < 3, t + j * 3 < 7 → (Store.ofGlobal d'.global).bits? ⟨.global, "ys", t + j * 3⟩ =
        ([.i64 (Int64.ofNat t), .i64 20, .i64 30] : List Value)[j]?.map Value.toBits) ∧
      ∀ i, (∀ t < 2, ∀ j < 3, t + j * 3 ≠ i) →
        (Store.ofGlobal d'.global).bits? ⟨.global, "ys", i⟩ = (Store.ofGlobal d.global).bits? ⟨.global, "ys", i⟩ := by
  intro d
  obtain ⟨p, hp, htuning, hconstants⟩ : ∃ p ∈ (strides.lower {}).toOption, p.tuning.isEmpty ∧
    (constants p).isEmpty := by
    decide +kernel
  have hhost : d.surroundings strides.env p = stridesHost := by
    unfold surroundings hostEnv
    rw [List.isEmpty_iff.mp htuning, List.isEmpty_iff.mp hconstants]
    rfl
  have complete : stridesHost.Complete := {
    scalars := fun x type h => by simp [stridesHost, stridesEnv] at h
    arrays := fun x hx => by
      obtain rfl := (strides_arrays (Std.ExtTreeMap.getElem?_eq_some_getElem hx)).1
      decide +kernel
    apart := fun x _ => strides_unknown x }
  have sized : stridesOp.Sized stridesHost 1 2 :=
    ⟨by decide, by decide, IsInt.int 1, IsInt.int 2, IsInt.int 1, IsInt.int 2⟩
  have alone : ∀ r ∈ [(⟨"ys", .i64, [.int 7]⟩ : PatElem)].zip stridesOp.results, r.1 ≠ ⟨"ys", .i64, [.int 7]⟩ →
      stridesOp.Settles stridesHost [2] d.loopLimit r := fun r hr hne =>
    absurd (List.mem_singleton.mp (List.of_mem_zip hr).1) hne
  have suffices' : stridesOp.grid.coverage.Suffices [2].prod 1 2 d.loopLimit := ⟨by decide, by unfold Fits; decide⟩
  obtain ⟨stats, d', hrun, -, hplaced, hothers⟩ := run_concatenated rfl rfl rfl (ok_of_toOption hp) (hhost ▸ complete)
    (hhost ▸ strides_spread) List.mem_cons_self (hhost ▸ strides_concatenates d.loopLimit (by decide)) (hhost ▸ alone)
    (hhost ▸ sized) suffices'
  exact ⟨p, stats, d', ok_of_toOption hp, hrun, hplaced, hothers⟩

/-- Four threads concatenate parts of three elements. -/
def parts (flat : Ident) (split : Split) (perThread : Operand) : Module where
  env := { arrays := ({} : Table _).insert "ys" (.i64, [.int 8]) }
  ops := [.seg [⟨"ys", .i64, [.int 8]⟩] {
    kind := .map
    grid := ⟨.thread, .int 1, .int 4, .direct⟩
    space := ⟨flat, [("i", .int 4)]⟩
    stms := [.arrayLit "a" .i64 [.var "i", .int 20, .int 30]]
    results := [.concat split perThread "a"] }]

/-- An index that has the name of the flat index is reset before it is computed from itself, so all parts begin with 0
    and lie at the start. And a place that 64 bits cannot hold is negative, which the comparison with the
    length lets through. -/
theorem parts_go_wrong :
    let d : Device := { wave := 1, global := ({} : Memory).insert "ys" (.ofValues .i64 (List.replicate 8 (.i64 9))) }
    let stored (m : Module) (f : Nat) : Option (List Write) :=
      m.ops.head?.bind fun
        | .seg pattern op => op.storesAt ⟨m.env, fun _ => none, d.global⟩ pattern [4] f
        | _ => none
    (let m := parts "i" .contiguous (.int 2);
      (∀ f < 4, stored m f = some [⟨⟨.global, "ys", f * 2⟩, f.toUInt64⟩, ⟨⟨.global, "ys", f * 2 + 1⟩, 20⟩]) ∧
      ∃ p, m.lower {} = .ok p ∧
        (d.run p).2.global["ys"]?.map Buffer.values = some ([0, 20, 9, 9, 9, 9, 9, 9].map Value.i64)) ∧
    (let m := parts "flat" (.strided (.int 4611686018427387904)) (.int 3);
      (∀ f < 4, stored m f = some [⟨⟨.global, "ys", f⟩, f.toUInt64⟩]) ∧
      ∃ p, m.lower {} = .ok p ∧ (d.run p).1 = .error (.outOfBounds "ys" (-9223372036854775808) 8)) := by
  intro d stored
  refine ⟨⟨by decide +kernel, ?_⟩, by decide +kernel, ?_⟩
  · obtain ⟨p, hp, hvalues⟩ : ∃ p ∈ ((parts "i" .contiguous (.int 2)).lower {}).toOption,
        (d.run p).2.global["ys"]?.map Buffer.values = some ([0, 20, 9, 9, 9, 9, 9, 9].map Value.i64) := by
          decide +kernel
    exact ⟨p, ok_of_toOption hp, hvalues⟩
  · obtain ⟨p, hp, hrun⟩ : ∃ p ∈ ((parts "flat" (.strided (.int 4611686018427387904)) (.int 3)).lower {}).toOption,
        (d.run p).1 = .error (.outOfBounds "ys" (-9223372036854775808) 8) := by decide +kernel
    exact ⟨p, ok_of_toOption hp, hrun⟩

end Device

end SegKernel
