import SegKernel.Proofs.Maps.Tiled

/-! Maps whose groups make their tiles with a map of their own. The threads of a group fill an array that they share,
    each element once, and after a barrier the group stores the array as its tile. -/

namespace SegKernel
open Exp Lowering

/-! ### The code of a nested map -/

/-- An element of a pattern as an array that the threads of a group share. -/
def PatElem.shared (p : PatElem) : ArrayInfo := ⟨⟨p.name, p.type, .shared, false⟩, p.shape.map Operand.toExp⟩

/-- The small arrays of a body hide no array of another name. -/
theorem BodyStm.kernelArray?_of_codeAll {setting : Setting} {x : Ident} :
    ∀ {stms : List BodyStm} {codes : List Stmt} {scope scope' : BodyScope} {s s' : Session},
      codeAll noNested scope stms setting s = .ok ((codes, scope'), s') → (∀ stm ∈ stms, x ∉ stm.literal?) →
        scope'.kernelArray? x = scope.kernelArray? x
  | [], _, _, _, _, _, h, _ => by
    obtain ⟨he, -⟩ := Lowering.pure_eq_ok.mp h
    cases he
    rfl
  | stm :: stms, _, scope, _, _, _, h, hx => by
    simp only [codeAll, Lowering.bind_eq_ok, Lowering.pure_eq_ok] at h
    obtain ⟨⟨first, scope₁⟩, s₁, hfirst, ⟨rest, scope₂⟩, s₂, hrest, he, rfl⟩ := h
    cases he
    obtain ⟨hstm, hstms⟩ := List.forall_mem_cons.mp hx
    rw [kernelArray?_of_codeAll hrest hstms]
    cases stm with
    | compute name type value =>
      obtain ⟨he, -⟩ := Lowering.pure_eq_ok.mp hfirst
      cases he
      rfl
    | index name type array is =>
      simp only [code, Lowering.bind_eq_ok, Lowering.pure_eq_ok] at hfirst
      obtain ⟨_, _, -, he, -⟩ := hfirst
      cases he
      rfl
    | arrayLit name type elems =>
      obtain ⟨he, -⟩ := Lowering.pure_eq_ok.mp hfirst
      cases he
      rw [Solo.kernelArray?_addArrays, if_neg (fun e : name = x => hstm (e ▸ rfl))]
    | nested pattern op => exact (Lowering.throw_ne_ok.mp hfirst).elim

/-- The code of a nested map with one result: each thread runs the body at its points and stores their values, and then
    the threads wait for each other. -/
theorem Nested.code_map_eq_ok {scope scope' : BodyScope} {p : PatElem} {inner : SegOp} {value : Operand}
    {setting : Setting} {s s' : Session} {stmt : Stmt} (hkind : inner.kind = .map)
    (hresults : inner.results = [.returns value]) (hshape : p.shape ≠ [])
    (hliterals : ∀ stm ∈ inner.stms, p.name ∉ stm.literal?)
    (hcode : Nested.code scope [p] inner setting s = .ok ((stmt, scope'), s')) :
    scope' = scope.addArrays [(p.name, p.shared)] ∧ ∃ codes after store s₁ s₂, s.names ≤ s₂.names ∧
      BodyStm.codeAll BodyStm.noNested (scope'.nested inner.span) inner.stms setting s = .ok ((codes, after), s₁) ∧
      after.store p.shared inner.space.indexExps value setting s₁ = .ok (store, s₂) ∧
      stmt = .comment inner.kind.name (.block [declarePattern [p],
        ((scope.launch.coverSpace inner.grid.coverage inner.space).run s₂.names).1.wrap
          (.block [.block codes, .block [store]]), .barrier .shared]) := by
  have arrays : patternArrays [p] = [(p.name, p.shared)] := by
    simp [patternArrays, PatElem.shared, hshape]
  simp only [Nested.code, Lowering.bind_eq_ok, Lowering.check_eq_ok, Lowering.pure_eq_ok, Lowering.lift_eq_ok,
    Lowering.require_eq_ok, arrays, hkind, hresults, Nested.Context.mapCode, Nested.Context.body, BodyStm.threadBody,
    Nested.Context.mappedStores, Nested.Context.outputIn, Nested.Context.cover, List.zip_cons_cons, List.zip_nil_left,
    List.mapM_cons, List.mapM_nil] at hcode
  obtain ⟨_, _, ⟨-, rfl⟩, _, _, ⟨_, s₁, ⟨⟨codes, after⟩, _, hcodes, rfl, rfl⟩, _, s₂, ⟨_, _, ⟨store, _, ⟨dest, _,
    ⟨hdest, rfl⟩, hstore⟩, _, _, ⟨rfl, rfl⟩, rfl, rfl⟩, rfl, rfl⟩, _, _, ⟨rfl, -⟩, rfl, -⟩, he, -⟩ := hcode
  cases he
  have hfound := BodyStm.kernelArray?_of_codeAll hcodes hliterals
  obtain rfl : dest = p.shared := by
    have : (scope.addArrays [(p.name, p.shared)]).kernelArray? p.name = some p.shared := by
      rw [Solo.kernelArray?_addArrays, if_pos rfl]
    exact Option.some.inj (hdest.symm.trans (hfound.trans this))
  have hnames := (BodyStm.codeAll_costs (t := Tally.nothing) (fun _ _ _ _ _ => .defect) _ (fun _ _ => rfl)
    (fun _ _ => rfl) _ _ _ hcodes).1
  have hnames' := (BodyScope.store_costs (t := Tally.nothing) _ _ _ _ _ _ _ hstore).1
  rw [hkind]
  exact ⟨rfl, codes, after, store, _, _, Nat.le_trans hnames hnames', hcodes, hstore, rfl⟩

/-! ### What a nested map fills -/

/-- What the body of a nested map knows at the start of a point, inside of what is known around the map. -/
def Segmented.startAt (inner : SegOp) (ρ : Env) (es : List Nat) (r : Nat) : Env :=
  { scalars := inner.space.pointScope ρ.scalars es r }

/-- The body of a map by groups, which visits points `ds`, is a map by threads over extents `es`. At each of its points
    it has one value for an array that the threads of a group share, which it does not read. Its names are its own. -/
structure Segmented.Fills (op inner : SegOp) (H : Surroundings) (p : PatElem) (value : Operand) (dest : Ident)
    (ds es : List Nat) (G limit : Nat) (v : Nat → Nat → Value) : Prop where
  stms : op.stms = [.nested [p] inner]
  kind : inner.kind = .map
  results : inner.results = [.returns value]
  covers : inner.grid.coverage.Covers es.prod G limit
  rank : es ≠ []
  positive : ∀ e ∈ es, 0 < e
  extents : List.Forall₂ (IsInt H.scope) inner.space.dimExps (ints es)
  shape : List.Forall₂ (IsInt H.scope) (p.shape.map Operand.toExp) (ints es)
  nodup : inner.space.names.Nodup
  indices : ∀ stm ∈ inner.stms, ∀ x ∈ stm.binds, x ∉ inner.space.names
  unknown : ∀ x ∈ inner.names, ¬H.env.Known x
  names : ∀ x ∈ inner.names, ¬Generated x
  apart : ∀ x ∈ inner.names, x ∉ op.space.names
  plain : ∀ stm ∈ inner.stms, stm.Plain fun array => array ≠ p.name ∧ array ≠ dest
  literals : ∀ stm ∈ inner.stms, p.name ∉ stm.literal?
  result : value ≠ .var p.name
  array : p.name ≠ dest
  values : ∀ q < ds.prod, ∀ r < es.prod, ∃ ρ,
    BodyStm.evalAll H (inner.startAt (op.start H ds q) es r) inner.stms = some ρ ∧
      ρ.array? value = none ∧ ρ.valueOf? p.type value.toExp = some (v q r)

/-- The write of an element of the shared array. -/
def Segmented.fill (p : PatElem) (v : Nat → Value) (r : Nat) : Write := ⟨p.shared.view.slot r, (v r).toBits⟩

section Points
variable {op inner : SegOp} {H : Surroundings} {p : PatElem} {value : Operand} {dest : Ident} {ds es : List Nat}
  {G limit q : Nat} {v : Nat → Nat → Value} {scope after : BodyScope} {setting : Setting} {s s₁ s₂ : Session}
  {codes : List Stmt} {store : Stmt} {B : Scope}

/-- The memory is that of the host but for the destination, and there is room for the elements of the shared array. -/
structure Segmented.Vacant (H : Surroundings) (p : PatElem) (dest : Ident) (size : Nat) (m : Store) : Prop where
  memory : ∀ a, a ≠ dest → m.buffer? .global a = H.memory[a]?
  room : ∀ r < size, m.Reaches p.shared.view r

/-- At a point of a nested map a thread writes the value of the point to its place in the shared array. -/
theorem Solo.ensures_fill {E : Solo} (hF : op.Fills inner H p value dest ds es G limit v) (henv : setting.env = H.env)
    (hcodes : BodyStm.codeAll BodyStm.noNested scope inner.stms setting s = .ok ((codes, after), s₁))
    (hstore : after.store p.shared inner.space.indexExps value setting s₁ = .ok (store, s₂))
    (hscope : ∀ x, x ≠ p.name → scope.kernelArray? x = none)
    (hvacant : Segmented.Vacant H p dest es.prod E.store)
    (hown : ∀ t slot, E.own t slot ↔ slot.space = .shared ∧ slot.array = p.name)
    (hsizes : ∀ (array : Ident) (type : ScalarType) (shape : List Operand) (es : List Int),
      H.env.arrays[array]? = some (type, shape) → Exp.intsAt? H.scope (shape.map Operand.toExp) = some es →
        Fits es.prod)
    (hfits : Fits (es.prod : Nat)) (hhost : H.scope.Le B) (hpoint : (op.start H ds q).scalars.Le B)
    (hnew : ∀ x ∈ inner.names, B x = none) (hq : q < ds.prod) {r : Nat} (hr : r < es.prod) {th : Thread}
    {ws : List Write} (hth : (B.sets (inner.space.point es r)).Le (E.scope th))
    (hws : ∀ w ∈ ws, w.slot.space = .shared ∧ w.slot.array = p.name) :
    E.Ensures (.block [.block codes, .block [store]]) (fun th' ws' => B.Le (E.scope th') ∧
      (∀ w ∈ ws', w.slot.space = .shared ∧ w.slot.array = p.name) ∧
      ws' = ws ++ [Segmented.fill p (v q) r]) th ws := by
  obtain ⟨ρ, hρ, harray, hvalue⟩ := hF.values q hq r hr
  have hindices : ∀ e ∈ inner.space.point es r, e.1 ∈ inner.names := fun e he =>
    List.mem_append_left _ (IterationSpace.name_of_mem_point he)
  -- The point of the nested map hides nothing that the thread knew at the point around it.
  have grows : B.Le (B.sets (inner.space.point es r)) :=
    (Scope.Le.refl B).sets_right fun e he => hnew e.1 (hindices e he)
  have sees : E.Sees H (B.sets (inner.space.point es r)) fun array => array ≠ p.name ∧ array ≠ dest := {
    host := hhost.trans grows
    memory := fun a ha => hvacant.memory a ha.2
    keeps := fun _ _ _ _ _ hmine => by cases ((hown _ _).mp hmine).1
    fits := hsizes }
  have hstart : (inner.startAt (op.start H ds q) es r).MatchesOn (· ≠ p.name) scope := fun x hx => hscope x hx
  have htyped : (inner.startAt (op.start H ds q) es r).Typed := fun _ _ _ h => by cases h
  have hbinds : ∀ stm ∈ inner.stms, ∀ x ∈ stm.binds, B.sets (inner.space.point es r) x = none := by
    intro stm hstm x hx
    have hinner : x ∈ inner.names := List.mem_append_right _ (List.mem_flatMap.mpr ⟨stm, hstm, hx⟩)
    exact (Scope.sets_of_not_mem fun e he (hname : e.1 = x) =>
      hF.indices stm hstm x hx (hname ▸ IterationSpace.name_of_mem_point he)).trans (hnew x hinner)
  have knows : E.Knows (B.sets (inner.space.point es r)) (inner.startAt (op.start H ds q) es r) th :=
    ⟨hth, (hpoint.sets _).trans hth, fun _ _ _ h => by cases h⟩
  have hm := (matches_of_codeAll hcodes hρ hF.plain hstart htyped).2.1
  -- The value is no array of the body, so it is stored as one element and not as a row.
  have hnone : after.operandArray? value = none := by
    cases value with
    | const c => rfl
    | var x =>
      refine (hm x fun e => hF.result (e ▸ rfl)).trans ?_
      have : ρ.arrays x = none := Option.map_eq_none_iff.mp harray
      rw [this]
      rfl
  rw [ensures_block, ensuresAll_cons, ensuresAll_singleton, ensures_block]
  refine ensures_codeAll sees henv (fun w hw hreads => hreads.1 (hws w hw).2) hcodes hρ hF.plain hbinds
    (fun x hx => hstart x hx.1) htyped knows fun th' hk => ?_
  obtain ⟨hx, htype⟩ := ensures_of_valueOf? hk hvalue
  rw [ensures_block, ensuresAll_singleton]
  refine ensures_storeValue hstore hnone (hF.shape.imp fun _ _ hd => hd.mono sees.host)
    (IterationSpace.isInts_point (List.nodup_cons.mp hF.nodup).2 hF.extents ?_) hr hfits hx htype (hvacant.room r hr)
    ((hown _ _).mpr ⟨rfl, rfl⟩) hk.base ⟨grows.trans hk.base, ?_, rfl⟩
  · unfold Fits at *
    omega
  · exact List.forall_mem_append.mpr ⟨hws, List.forall_mem_singleton.mpr ⟨rfl, rfl⟩⟩

namespace Team
variable {T : Team} {g n : Nat} {launch : Launch} {σ : Nat → Scope} {m : Store}

/-- The threads of a group fill the shared array, each element once. -/
theorem leads_fill (hF : op.Fills inner H p value dest ds es T.size T.ctx.loopLimit v) (hop : op.WellNamed H.env)
    (hunchecked : T.ctx.checkRaces = false) (henv : setting.env = H.env)
    (hsizes : ∀ (array : Ident) (type : ScalarType) (shape : List Operand) (es : List Int),
      H.env.arrays[array]? = some (type, shape) → Exp.intsAt? H.scope (shape.map Operand.toExp) = some es →
        Fits es.prod)
    (hσ : T.Oriented op H launch g n σ) (hforesees : T.Foresees H launch σ)
    (hgroupSize : IsInt H.scope launch.groupSize T.size)
    (hcodes : BodyStm.codeAll BodyStm.noNested scope inner.stms setting s = .ok ((codes, after), s₁))
    (hstore : after.store p.shared inner.space.indexExps value setting s₁ = .ok (store, s₂))
    (hscope : ∀ x, x ≠ p.name → scope.kernelArray? x = none) (hs : n ≤ s₂.names)
    (hq : q < ds.prod) (hvacant : Segmented.Vacant H p dest es.prod m) :
    T.Leads (T.Knowing (arrived σ op.space ds q)) m
      (((launch.coverSpace inner.grid.coverage inner.space).run s₂.names).1.wrap
        (.block [.block codes, .block [store]]))
      (T.Knowing (arrived σ op.space ds q)) fun ws => ws.Perm ((List.range es.prod).map (Segmented.fill p (v q))) := by
  let own : Nat → Slot → Prop := fun _ slot => slot.space = .shared ∧ slot.array = p.name
  let w (r : Nat) : List Write := [Segmented.fill p (v q) r]
  have fits : Fits (es.prod : Nat) := hF.covers.fits hgroupSize.fits
  have hnew : ∀ x ∈ op.space.names, ∀ t < T.size, σ t x = none := fun x hx t ht =>
    (hσ.around t ht).new hop x (List.mem_append_left _ hx)
  have shape : List.Forall₂ (IsInt H.scope) (inner.space.shape.map Operand.toExp) (ints es) := by
    rw [Launch.map_toExp_shape]
    exact hF.extents
  -- Each thread writes its own share of the points, and together the shares are all of them.
  have shares : T.Leads (T.Knowing (arrived σ op.space ds q)) m
      (((launch.coverSpace inner.grid.coverage inner.space).run s₂.names).1.wrap
        (.block [.block codes, .block [store]]))
      (T.Knowing (arrived σ op.space ds q)) (T.Apiece fun t => turns w es.prod T.size t) := by
    refine .apiece_of own (fun hchecked => absurd (hunchecked.symm.trans hchecked) (by decide)) fun t ht th hth => ?_
    have grows : (σ t).Le (arrived σ op.space ds q t) := le_arrived hnew ht
    have host : H.scope.Le (arrived σ op.space ds q t) := (hσ.around t ht).host.trans grows
    have inside : ∀ x ∈ inner.names, arrived σ op.space ds q t x = none := fun x hx =>
      (Scope.sets_of_not_mem fun e he (hname : e.1 = x) =>
        hF.apart x hx (hname ▸ IterationSpace.name_of_mem_point he)).trans
        ((hσ.around t ht).only x (hF.unknown x hx) (hF.names x hx))
    refine (Solo.ensures_coverSpace (E := ⟨T.ctx, m, own, t⟩) (A := fun _ ws => ∀ w ∈ ws, w.slot.space = .shared ∧
      w.slot.array = p.name) inner.grid.coverage w hth (List.forall_mem_nil _)
      ((before_arrived hop (hσ.around t ht).before).mono hs) ht (grows _ _ (hσ.localId t ht)) (hgroupSize.mono host)
      (fun _ ids hids => (hforesees.pointIds? shape hids ht).imp fun _ _ hi => hi.mono grows)
      (fun count hcount => (hforesees.chunkCount? shape hcount ht).mono grows) hF.nodup
      (fun x hx => inside x (List.mem_append_left _ hx)) (fun x hx hnew => ?_)
      (hF.extents.imp fun _ _ hd => hd.mono host) hF.rank hF.positive hF.covers
      fun r hr th' ws hpoint hws => ?_).imp fun th' ws h => ⟨h.1, h.2.2⟩
    · exact hF.names x (List.mem_append_left _ hx) hnew.generated
    · exact Solo.ensures_fill hF henv hcodes hstore hscope hvacant (fun _ _ => .rfl) hsizes fits host
        ((hσ.around t ht).host.sets (op.space.point ds q)) inside hq hr hpoint hws
  refine shares.imp (fun _ _ _ => id) (fun _ _ _ => id) fun ws hws => ?_
  refine hws.trans ((turns_perm w es.prod T.pos).trans (List.Perm.of_eq ?_))
  exact List.flatMap_pure_eq_map _ _

end Team
end Points

/-! ### Tiles that are filled -/

namespace Segmented
section Memory
variable {H : Surroundings} {p : PatElem} {dest : Ident} {size : Nat} {m : Store} {v : Nat → Value} {ws : List Write}

/-- The memory is that of the host but for the destination, and the shared array has its elements. -/
structure Filled (H : Surroundings) (p : PatElem) (dest : Ident) (size : Nat) (v : Nat → Value) (m : Store) :
    Prop where
  memory : ∀ a, a ≠ dest → m.buffer? .global a = H.memory[a]?
  elements : ∀ r < size, m.Holds p.shared.view r (v r)

theorem Filled.vacant (h : Filled H p dest size v m) : Vacant H p dest size m :=
  ⟨h.memory, fun r hr => (h.elements r hr).reaches⟩

/-- Once each element is written the array is filled, in whichever order that was. -/
theorem Vacant.filled (h : Vacant H p dest size m) (htypes : ∀ r < size, (v r).type = p.type)
    (hws : ws.Perm ((List.range size).map (fill p v))) : Filled H p dest size v (m.puts ws) := by
  have mem : ∀ w, w ∈ ws ↔ ∃ r < size, fill p v r = w := fun w => by simp [hws.mem_iff]
  refine ⟨fun a ha => ?_, fun r hr => ?_⟩
  · refine (Store.buffer?_puts_of_forall_ne fun w hw hspace => ?_).trans (h.memory a ha)
    obtain ⟨r, -, rfl⟩ := (mem w).mp hw
    cases hspace
  · obtain ⟨old, hold⟩ := Option.isSome_iff_exists.mp (h.room r hr).isSome_bits?
    have written : (m.puts ws).bits? (fill p v r).slot = some (v r).toBits := by
      refine (Store.bits?_puts_of_mem ((mem _).mpr ⟨r, hr, rfl⟩) fun w hw hslot => ?_).trans ?_
      · obtain ⟨r', -, rfl⟩ := (mem w).mp hw
        obtain rfl : r' = r := congrArg Slot.position hslot
        rfl
      · rw [show m.bits? (fill p v r).slot = some old from hold, Option.map_some]
        rfl
    refine ⟨(h.room r hr).puts ws, (v r).toBits, written, ?_⟩
    rw [show p.shared.view.type = (v r).type from (htypes r hr).symm, Value.ofBits_toBits]

/-- Writes to the destination leave the array as it is. -/
theorem Filled.puts (h : Filled H p dest size v m) (hws : ∀ w ∈ ws, w.goesTo dest = true) :
    Filled H p dest size v (m.puts ws) := by
  refine ⟨fun a ha => (Store.buffer?_puts_of_forall_ne fun w hw _ harray => ?_).trans (h.memory a ha), fun r hr =>
    (h.elements r hr).puts_of_forall_ne fun w hw hslot => ?_⟩
  · exact ha (harray.symm.trans (Write.goesTo_iff.mp (hws w hw)).2)
  · have := (Write.goesTo_iff.mp (hws w hw)).1
    rw [hslot] at this
    cases this

/-- A group that starts with the shared array has room for its elements. -/
theorem vacant_of_stocks {ctx : GroupContext} {arrays : List SharedArray} {shared global : Memory}
    (hstocks : Run.Stocks ctx arrays {} shared) (hmem : ⟨p.name, p.type, .product (p.shape.map Operand.toExp)⟩ ∈ arrays)
    (hlength : Run.Length ctx ⟨p.name, p.type, .product (p.shape.map Operand.toExp)⟩ size)
    (hmemory : ∀ a, a ≠ dest → (⟨shared, global⟩ : Store).buffer? .global a = H.memory[a]?) :
    Vacant H p dest size ⟨shared, global⟩ := by
  refine ⟨hmemory, fun r hr => ⟨p.type, size, ?_, rfl, hr⟩⟩
  show (shared[p.name]?).map (fun b => (b.type, b.bits.size)) = _
  rw [hstocks.new _ hmem size hlength (by simp)]
  simp [Buffer.zeroed]

end Memory

section Bodies
variable {op inner : SegOp} {H : Surroundings} {p e : PatElem} {value : Operand} {ds es : List Nat} {q : Nat}
  {tiles : List (Operand × Operand)} {v : Nat → Nat → Value} {setting : Setting}

/-- The code of a body that is a nested map, once the shared array is declared in front. -/
theorem Fills.groupBody {G limit : Nat} (hF : op.Fills inner H p value e.name ds es G limit v) {ctx : GroupContext}
    {launch : Launch} {s s' : Session} {code : Stmt} {scope : BodyScope}
    (hbody : BodyStm.groupBody { launch, span := op.span } op.stms setting s = .ok ((code, scope), s')) :
    scope.kernelArray? p.name = some p.shared ∧ (∀ x, x ≠ p.name → scope.kernelArray? x = none) ∧
      ∃ codes after store s₁ s₂, s.names ≤ s₂.names ∧
        BodyStm.codeAll BodyStm.noNested (scope.nested inner.span) inner.stms setting s = .ok ((codes, after), s₁) ∧
        after.store p.shared inner.space.indexExps value setting s₁ = .ok (store, s₂) ∧
        Mimics ctx ctx code.dropShared (.block [.comment inner.kind.name (.block [
          ((launch.coverSpace inner.grid.coverage inner.space).run s₂.names).1.wrap
            (.block [.block codes, .block [store]]), .barrier .shared])]) := by
  have hshape : p.shape ≠ [] := fun h => by
    have := hF.shape
    rw [h] at this
    cases es with
    | nil => exact hF.rank rfl
    | cons => cases this
  simp only [hF.stms, BodyStm.groupBody, BodyStm.codeAll, BodyStm.code, Lowering.bind_eq_ok,
    Lowering.pure_eq_ok] at hbody
  obtain ⟨_, _, ⟨⟨stmt, scope'⟩, _, hcode, _, _, ⟨rfl, rfl⟩, rfl, rfl⟩, he, rfl⟩ := hbody
  cases he
  obtain ⟨rfl, codes, after, store, s₁, s₂, hnames, hcodes, hstore, rfl⟩ :=
    Nested.code_map_eq_ok hF.kind hF.results hshape hF.literals hcode
  -- Only the declaration in front is hoisted: the code of the threads declares no shared array.
  have shared : (((launch.coverSpace inner.grid.coverage inner.space).run s₂.names).1.wrap
      (.block [.block codes, .block [store]])).sharedArrays = [] := by
    refine (Launch.private_coverSpace _ _ _ _ (.block ?_)).shared
    have hcodes := (Lowering.makes_codeAll (K := fun _ => False) (fun _ _ _ _ => id) (fun _ _ _ _ => .throw) _ _ _
      hcodes).1
    have hstore := (Lowering.makes_store (K := fun _ => False) (fun _ => False.elim) _ _ _ hstore).1
    exact List.forall_mem_cons.mpr ⟨.block hcodes, List.forall_mem_singleton.mpr (.block
      (List.forall_mem_singleton.mpr hstore))⟩
  have declares : Mimics ctx ctx (declarePattern [p]).dropShared .skip := by
    refine mimics_dropShared_block.trans ?_
    rw [List.map_singleton, List.map_singleton, if_neg (by simpa using hshape)]
    exact .refl ctx _
  refine ⟨?_, fun x hx => ?_, codes, after, store, s₁, s₂, hnames, hcodes, hstore, ?_⟩
  · rw [Solo.kernelArray?_addArrays, if_pos rfl]
  · rw [Solo.kernelArray?_addArrays, if_neg hx.symm]
    rfl
  · refine mimics_dropShared_block.trans (.block (.cons ?_ .nil))
    have parts : MimicsAll ctx ctx _ [.skip, _, .barrier .shared] :=
      .cons declares (.cons (mimics_dropShared shared) (.cons (.refl ctx _) .nil))
    have code := Mimics.block parts
    exact .comment (mimics_dropShared_block.trans code)

/-- A body that is a nested map makes the tile of a group: its threads fill a shared array, and then they wait for each
    other. -/
theorem makesTiles_of_fills {d : Device} {P G : Nat} {hG : 0 < G} {arrays : List SharedArray} (hop : op.WellNamed H.env)
    (henv : setting.env = H.env) (hunchecked : d.checkRaces = false)
    (hsizes : ∀ (array : Ident) (type : ScalarType) (shape : List Operand) (es : List Int),
      H.env.arrays[array]? = some (type, shape) → Exp.intsAt? H.scope (shape.map Operand.toExp) = some es →
        Fits es.prod)
    (hgroupSize : IsInt H.scope op.grid.groupWidth G) (hF : op.Fills inner H p value e.name ds es G d.loopLimit v)
    (hnodup : (arrays.map (·.name)).Nodup)
    (hmem : ⟨p.name, p.type, .product (p.shape.map Operand.toExp)⟩ ∈ arrays) :
    op.MakesTiles H setting d P hG arrays [(e, .tile tiles p.name)] ds e.name p.name p.type es.prod v
      (Vacant H p e.name es.prod) := by
  have fits : Fits (es.prod : Nat) := hF.covers.fits hgroupSize.fits
  have length : ∀ g, Run.Length (contextOf H d P G g) ⟨p.name, p.type, .product (p.shape.map Operand.toExp)⟩
      es.prod := by
    intro g
    obtain ⟨i, hi, hvalue⟩ := (isInt_product (List.forall₂_map_right_iff.mp hF.shape) fits).evalInt
    refine ⟨i, hi, ?_⟩
    rw [arrayLength, hvalue, if_neg (by omega), Int.toNat_natCast]
  refine ⟨fun g _ shared hstocked => vacant_of_stocks (hstocked hnodup) hmem (length g) fun _ _ => rfl,
    fun m hfair g _ shared hstocked => vacant_of_stocks (hstocked hnodup) hmem (length g) hfair.memory,
    fun g hg launch n σ hσ hforesees hwidth s code scope s' hs hbody q hq => ?_⟩
  obtain ⟨harray, hothers, codes, after, store, s₁, s₂, hnames, hcodes, hstore, hmimics⟩ := hF.groupBody hbody
  have types : ∀ r < es.prod, (v q r).type = p.type := by
    intro r hr
    obtain ⟨ρ, -, -, hvalue⟩ := hF.values q hq r hr
    unfold Env.valueOf? at hvalue
    rw [Option.filter_eq_some_iff] at hvalue
    simpa using hvalue.2
  refine ⟨Filled H p e.name es.prod (v q), (groupAt H d P hG g).Knowing (Team.arrived σ op.space ds q), {
    body := fun m hm => Team.Leads.of_mimics ?_ hmimics
    others := fun r hr hne => absurd (congrArg (·.1.name) (List.mem_singleton.mp hr)) hne
    knows := fun _ _ _ => id
    shows := ⟨p.shared, Or.inl harray, rfl, fun h => (by cases h.1), fun m hm _ _ _ _ => hm.elements⟩
    fair := fun _ hm => hm.vacant
    written := fun _ _ hm hws => hm.puts hws
    declared := fun t ht th th' hth _ hle =>
      (hth.old (Team.before_arrived hop (hσ.around t ht).before)).trans hle
    dest := hothers _ hF.array.symm }⟩
  refine Team.leads_block.mpr (Team.leadsAll_singleton.mpr (Team.leads_comment.mpr (Team.leads_block.mpr ?_)))
  -- The barrier carries the writes of all threads over to the assembly of the tile.
  have fill := Team.leads_fill (T := groupAt H d P hG g) hF hop hunchecked henv hsizes hσ hforesees
    (hwidth ▸ hgroupSize) hcodes hstore hothers (hs ▸ hnames) hq hm
  refine Team.LeadsAll.cons fill fun ws hws => Team.leadsAll_singleton.mpr (Team.leads_barrier (fun _ _ _ => id) ?_)
  rw [List.append_nil]
  refine ⟨hm.filled types hws, fun w hw => ?_⟩
  obtain ⟨r, -, rfl⟩ := List.mem_map.mp (hws.mem_iff.mp hw)
  rfl

end Bodies
end Segmented

/-! ### Tiles that are staged -/

namespace Device

/-- The threads of a group take four elements of an array, and scale them. -/
def scaleOp : SegOp where
  kind := .map
  grid := ⟨.thread, .int 2, .int 4, .direct⟩
  space := ⟨"l", [("k", .int 4)]⟩
  stms := [.index "x" .i64 "xs" [.var "t" * .int 4 + .var "k"], .compute "y" .i64 (.var "x" * .int 3)]
  results := [.returns (.var "y")]

def stagePart : PatElem := ⟨"chunk", .i64, [.int 4]⟩

def stageDest : PatElem := ⟨"ys", .i64, [.int 8]⟩

/-- Each group stages a tile of four elements in an array of its own, and writes it back out. -/
def stageOp : SegOp where
  kind := .map
  grid := ⟨.group, .int 2, .int 4, .virtualize⟩
  space := ⟨"g", [("t", .int 2)]⟩
  stms := [.nested [stagePart] scaleOp]
  results := [.tile [(.int 8, .int 4)] "chunk"]

def stageEnv : HostEnv where
  arrays := (({} : Table _).insert "xs" (.i64, [.int 8])).insert "ys" (.i64, [.int 8])

def stageMemory (xs : List Int64) : Memory :=
  (({} : Memory).insert "xs" (.ofValues .i64 (xs.map .i64))).insert "ys" (.zeroed .i64 8)

def stageHost (xs : List Int64) : Surroundings := ⟨stageEnv, (({} : Table Value)[·]?), stageMemory xs⟩

def stage : Module := ⟨stageEnv, [.seg [stageDest] stageOp]⟩

theorem stage_unknown (x : Ident) : ¬stageEnv.Known x := by
  simp [HostEnv.Known, stageEnv]

theorem stage_arrays {x : Ident} {r : ScalarType × List Operand} (h : stageEnv.arrays[x]? = some r) :
    (x = "xs" ∨ x = "ys") ∧ r = (.i64, [.int 8]) := by
  rw [stageEnv, Table.getElem?_insert, Table.getElem?_insert] at h
  split at h
  · rename_i hx
    exact ⟨.inr hx.symm, (Option.some.inj h).symm⟩
  split at h
  · rename_i hx
    exact ⟨.inl hx.symm, (Option.some.inj h).symm⟩
  · simp at h

theorem stage_element {xs : List Int64} {i : Nat} (hxs : xs.length = 8) (hi : i < 8) :
    (stageHost xs).element? "xs" [(i : Int)] = some (.i64 (xs.getD i 0)) := by
  have memory : (stageHost xs).memory["xs"]? = some (.ofValues .i64 (xs.map .i64)) := by
    rw [stageHost, stageMemory, Table.getElem?_insert, if_neg (by decide), Table.getElem?_insert, if_pos rfl]
  have shape : (stageHost xs).env.arrays["xs"]? = some (.i64, [.int 8]) := by
    rw [stageHost, stageEnv, Table.getElem?_insert, if_neg (by decide), Table.getElem?_insert, if_pos rfl]
  have extents : Exp.intsAt? (stageHost xs).scope ([Operand.int 8].map Operand.toExp) = some [8] :=
    intsAt?_eq_some.mpr (.cons (IsInt.int 8) .nil)
  have inside : Inside [8] [(i : Int)] := .cons (by omega) .nil
  have place : (Int64.ofInt (rowMajor [8] [(i : Int)])).toInt = i := by
    rw [show rowMajor [8] [(i : Int)] = (i : Int) by simp [rowMajor]]
    exact toInt_ofNat_of_fits (by unfold Fits; omega)
  have value : (xs.map Value.i64)[i]? = some (.i64 (xs.getD i 0)) := by
    simp [hxs, hi]
  have load := Buffer.load_ofValues ⟨"xs", .i64, .global, false⟩ place value rfl
  simp only [Surroundings.element?, shape, Option.bind_eq_bind, Option.bind_some, extents, inside, guard_true, memory]
  exact congrArg Except.toOption load

theorem stage_fills {xs : List Int64} (hxs : xs.length = 8) (limit : Nat) :
    stageOp.Fills scaleOp (stageHost xs) stagePart (.var "y") "ys" [2] [4] 4 limit fun q r =>
      .i64 (xs.getD (q * 4 + r) 0 * 3) where
  stms := rfl
  kind := rfl
  results := rfl
  covers := Nat.le_refl 4
  rank := by decide
  positive := by decide
  extents := .cons (IsInt.int 4) .nil
  shape := .cons (IsInt.int 4) .nil
  nodup := by decide
  indices := by decide
  unknown := fun x _ => stage_unknown x
  names := fun x hx => not_generated (by revert x; decide)
  apart := by decide
  plain := List.forall_mem_cons.mpr ⟨⟨by decide, by decide, by decide⟩, List.forall_mem_singleton.mpr (by
    show "y" ∉ _
    decide)⟩
  literals := by simp [scaleOp, BodyStm.literal?]
  result := by decide
  array := by decide
  values q hq r hr := by
    have hq : q < 2 := hq
    have hr : r < 4 := hr
    let ρ := scaleOp.startAt (stageOp.start (stageHost xs) [2] q) [4] r
    have tile : IsInt ρ.scalars (.var "t") q := .var_nat (congrArg (fun n => some (Value.i64 (Int64.ofNat n)))
      (Nat.div_one q)) (by unfold Fits; omega)
    have index : IsInt ρ.scalars (.var "k") r := .var_nat (congrArg (fun n => some (Value.i64 (Int64.ofNat n)))
      (Nat.div_one r)) (by unfold Fits; omega)
    have four : IsInt ρ.scalars (.int 4) 4 := IsInt.int 4
    have place := (tile.mul four (by unfold Fits; omega)).add index (by unfold Fits; omega)
    have places : Exp.intsAt? ρ.scalars [.var "t" * .int 4 + .var "k"] = some [((q * 4 + r : Nat) : Int)] :=
      intsAt?_eq_some.mpr (.cons (by exact_mod_cast place) .nil)
    have element : ρ.element? (stageHost xs) "xs" [((q * 4 + r : Nat) : Int)] = some (.i64 (xs.getD (q * 4 + r) 0)) :=
      stage_element hxs (by omega)
    let loaded := ρ.bind "x" (.i64 (xs.getD (q * 4 + r) 0))
    have hload : BodyStm.eval (stageHost xs) ρ (.index "x" .i64 "xs" [.var "t" * .int 4 + .var "k"]) = some loaded := by
      simp only [BodyStm.eval, places, Option.bind_eq_bind, Option.bind_some, element]
      rfl
    have hscale : BodyStm.eval (stageHost xs) loaded (.compute "y" .i64 (.var "x" * .int 3)) =
        some (loaded.bind "y" (.i64 (xs.getD (q * 4 + r) 0 * 3))) := rfl
    exact ⟨_, BodyStm.evalAll_cons_eq_some.mpr ⟨_, hload, BodyStm.evalAll_cons_eq_some.mpr ⟨_, hscale, rfl⟩⟩, rfl, rfl⟩

theorem stage_wellNamed (xs : List Int64) : stageOp.WellNamed (stageHost xs).env where
  nodup := by decide
  unknown := fun x _ => stage_unknown x
  names := fun x hx => not_generated (by revert x; decide)
  hostNames := fun x hx => by
    rcases hx with h | h | h | ⟨y, type, shape, h, d, hd, hx⟩
    · exact absurd (Or.inl h) (stage_unknown x)
    · exact absurd (Or.inr h) (stage_unknown x)
    · obtain ⟨rfl | rfl, -⟩ := stage_arrays (Std.ExtTreeMap.getElem?_eq_some_getElem h) <;>
        exact not_generated (by decide)
    · cases (stage_arrays h).2
      obtain rfl := List.mem_singleton.mp hd
      cases hx

/-- Each group of the launch makes the tiles it visits out of the elements of the array, whatever these are. -/
theorem stage_makesTiles {xs : List Int64} (hxs : xs.length = 8) {d : Device} (hunchecked : d.checkRaces = false) :
    ∃ p, stage.lower {} = .ok p ∧ ∀ k ∈ p.kernels, stageOp.MakesTiles (stageHost xs) ⟨{}, stageEnv⟩ d 2
      (show 0 < 4 by decide) k.body.sharedArrays ([stageDest].zip stageOp.results) [2] "ys" "chunk" .i64 [4].prod
      (fun q r => .i64 (xs.getD (q * 4 + r) 0 * 3)) (Segmented.Vacant (stageHost xs) stagePart "ys" 4) := by
  obtain ⟨p, hlower, hshared⟩ : ∃ p ∈ (stage.lower {}).toOption, ∀ k ∈ p.kernels,
      k.body.sharedArrays = [⟨"chunk", .i64, .product [.int 4]⟩] := by decide +kernel
  have sizes : ∀ (array : Ident) (type : ScalarType) (shape : List Operand) (es : List Int),
      (stageHost xs).env.arrays[array]? = some (type, shape) →
        Exp.intsAt? (stageHost xs).scope (shape.map Operand.toExp) = some es → Fits es.prod := by
    intro array type shape es h hes
    cases (stage_arrays h).2
    obtain rfl : es = [8] := Option.some.inj (hes.symm.trans (intsAt?_eq_some.mpr (.cons (IsInt.int 8) .nil)))
    unfold Fits
    decide
  have fills := stage_fills hxs d.loopLimit
  refine ⟨p, ok_of_toOption hlower, fun k hk => ?_⟩
  rw [hshared k hk]
  exact Segmented.makesTiles_of_fills (e := stageDest) (G := 4) (stage_wellNamed xs) rfl hunchecked sizes (IsInt.int 4)
    fills (List.nodup_singleton _) (List.mem_singleton_self _)

end Device
end SegKernel
