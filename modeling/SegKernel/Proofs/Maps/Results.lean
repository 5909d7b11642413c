import Mathlib.Data.List.Forall2
import Mathlib.Data.List.ReduceOption
import SegKernel.Lowering.Results
import SegKernel.Proofs.Maps.Bodies
import SegKernel.Proofs.Maps.Meaning

/-! The code that stores the results of a body. It writes what the results mean, each one to its own
    destination. -/

namespace SegKernel
open Exp

/-! ### Positions in a destination -/

/-- The position of an element of the part that belongs to a point. -/
theorem isInt_partIndex {σ : Scope} {dest : ArrayInfo} {indices : List Exp} {inner : Exp} {ds : List Nat}
    (tail : List Nat) {f k : Nat} (hshape : List.Forall₂ (IsInt σ) dest.shape (ints (ds ++ tail)))
    (hindices : List.Forall₂ (IsInt σ) indices (ints (coords ds f))) (hf : f < ds.prod) (hinner : IsInt σ inner k)
    (hk : k < tail.prod) (hfits : Fits ((ds ++ tail).prod : Nat)) :
    IsInt σ (dest.partIndex indices inner) ((f * tail.prod + k : Nat) : Int) := by
  have hrank : indices.length = ds.length := by
    rw [hindices.length_eq, List.length_map, length_coords]
  -- The element lies before the part of the next point, so all steps of the computation fit.
  have hlength : dest.shape.length = ds.length + tail.length := by
    rw [hshape.length_eq, List.length_map, List.length_append]
  have htake : List.Forall₂ (IsInt σ) (dest.shape.take indices.length) (ints ds) := by
    have := List.forall₂_take indices.length hshape
    rwa [ints, List.map_append, hrank, List.take_left' (by simp), ← hrank] at this
  have hdrop : List.Forall₂ (fun x (d : Nat) => IsInt σ x d) (dest.shape.drop indices.length) tail := by
    have := List.forall₂_drop indices.length hshape
    rw [ints, List.map_append, hrank, List.drop_left' (by simp), ← hrank] at this
    exact List.forall₂_map_right_iff.mp this
  have hall : indices.take dest.shape.length = indices := List.take_of_length_le (by omega)
  rw [List.prod_append] at hfits
  have htail : 0 < tail.prod := Nat.lt_of_le_of_lt (Nat.zero_le k) hk
  have hle : f * tail.prod + k < ds.prod * tail.prod := by
    calc f * tail.prod + k < f * tail.prod + tail.prod := Nat.add_lt_add_left hk _
      _ = (f + 1) * tail.prod := (Nat.succ_mul f tail.prod).symm
      _ ≤ ds.prod * tail.prod := Nat.mul_le_mul_right _ hf
  have fits : ∀ n : Nat, n ≤ ds.prod * tail.prod → Fits n := by
    intro n hn
    unfold Fits at *
    omega
  have hprod : ds.prod ≤ ds.prod * tail.prod := Nat.le_mul_of_pos_right _ htail
  have hprod' : tail.prod ≤ ds.prod * tail.prod := Nat.le_mul_of_pos_left _ (Nat.lt_of_le_of_lt (Nat.zero_le f) hf)
  have hrow : IsInt σ (.flatten (dest.shape.take indices.length) (indices.take dest.shape.length)) f := by
    have := isInt_flatten htake (hall.symm ▸ hindices) (inside_coords hf) (by
      have := fits _ hprod
      rwa [prod_ints])
    rwa [rowMajor_coords hf] at this
  have hpart := isInt_product hdrop (fits _ hprod')
  unfold ArrayInfo.partIndex
  have := (hrow.mul hpart (by exact_mod_cast fits (f * tail.prod) (by omega))).add hinner
    (by exact_mod_cast fits _ (Nat.le_of_lt hle))
  exact_mod_cast this

/-- A result has a place in its destination: the destination has the extents of the space, followed by the
    number of the elements of a small array, and 64 bits can hold the size of the extents of scattered values. -/
def BodyResult.Placed (H : Surroundings) (limit : Nat) (ds : List Nat) (ρ : Env) (shape : List Operand) :
    BodyResult → Prop
  | .returns value =>
    List.Forall₂ (IsInt H.scope) (shape.map Operand.toExp) (ints (ds ++ ((ρ.array? value).map List.length).toList)) ∧
      Fits ((ds ++ ((ρ.array? value).map List.length).toList).prod : Nat) ∧ ∀ vs ∈ ρ.array? value, vs.length ≤ limit
  | .write extents _ => ∀ es ∈ Exp.intsAt? ρ.scalars (extents.map Operand.toExp), Fits es.prod
  | .tile .. | .concat .. => False

/-- A result has a place in its destination at a point of a space: concatenated results go by the flat index, their
    number is a number of turns, and 64 bits can hold their places. -/
def BodyResult.Lodged (H : Surroundings) (limit : Nat) (flat : Ident) (ds : List Nat) (f : Nat) (ρ : Env)
    (shape : List Operand) :
    BodyResult → Prop
  | .concat split perThread _ => IsInt ρ.scalars (.var flat) f ∧ (∀ es ∈ H.extents? shape, Fits (es.prod : Nat)) ∧
      ∀ p : Nat, IsInt ρ.scalars perThread.toExp p → p ≤ limit ∧
        ∀ place ∈ split.place? ρ.scalars p f, ∀ j < p, Fits (place j : Nat)
  | result => result.Placed H limit ds ρ shape

theorem BodyResult.Placed.lodged {H : Surroundings} {limit : Nat} {flat : Ident} {ds : List Nat} {f : Nat} {ρ : Env}
    {shape : List Operand} {result : BodyResult} (h : result.Placed H limit ds ρ shape) :
    result.Lodged H limit flat ds f ρ shape := by
  cases result with
  | concat => exact h.elim
  | _ => exact h

/-- The array that a name stands for: one that the kernel declares, or else one of the host. -/
def BodyScope.Finds (scope : BodyScope) (env : HostEnv) (name : Ident) (a : ArrayInfo) : Prop :=
  scope.kernelArray? name = some a ∨ scope.kernelArray? name = none ∧ ∃ type shape,
    env.arrays[name]? = some (type, shape) ∧
    a = ⟨⟨name, type, .global, false⟩, shape.map Operand.toExp⟩

namespace Solo
variable {E : Solo} {B B' : Scope} {ρ : Env} {th : Thread} {ws : List Write} {Q : Claim} {name : Ident}
  {type : ScalarType} {v : Value} {ds : List Nat} {f : Nat}

theorem Knows.mono (h : E.Knows B' ρ th) (hB : B.Le B') : E.Knows B ρ th := ⟨hB.trans h.base, h.scalars, h.arrays⟩

/-- A variable that the body does not have gets a value. -/
theorem Knows.set (h : E.Knows B ρ th) (hρ : ρ.scalars name = none) (v : Value) :
    E.Knows (B.set name v) ρ (th.bind name v) :=
  ⟨Thread.set_le_scope_bind h.base, Thread.le_scope_bind h.scalars hρ, h.arrays⟩

/-- The thread may make some writes to an array, and the array has their places. -/
def Allows (E : Solo) (view : View) (ws : List Write) : Prop :=
  ∀ w ∈ ws, E.store.Reaches view w.slot.position ∧ E.own E.id w.slot

/-! ### Values and small arrays -/

/-- An element is written to its place in another array. -/
theorem ensures_moveElement {source dest : ArrayInfo} {x : Ident} {i j : Exp} {k p : Nat} (hk : E.Knows B ρ th)
    (hx : B x = none) (hρ : ρ.scalars x = none) (hi : IsInt B i k)
    (hj : ∀ th', E.Knows B ρ th' → IsInt (E.scope th') j p)
    (hload : ∀ a th', a.toInt = (k : Int) → th'.arrays = th.arrays → E.Loads source.view a v th' ws)
    (hsource : v.type = source.view.type) (hdest : v.type = dest.view.type) (hreaches : E.store.Reaches dest.view p)
    (hown : E.own E.id (dest.view.slot p))
    (h : ∀ th', E.Knows B ρ th' → th'.arrays = th.arrays → Q th' (ws ++ [⟨dest.view.slot p, v.toBits⟩])) :
    E.Ensures (source.moveElement dest x i j) Q th ws := by
  unfold ArrayInfo.moveElement
  rw [ensures_block, ensuresAll_cons, ensuresAll_cons, ensuresAll_singleton]
  refine ensures_declare ?_
  obtain ⟨a, ha, hai⟩ := (hi.mono (Thread.le_scope_bind (v := .zero source.view.type) hk.base hx)).evalInt
  rw [Ensures]
  refine ⟨a, v, ha, hload a _ hai rfl, ⟨.zero source.view.type, by simp [Thread.bind], by simp [hsource]⟩, ?_⟩
  rw [Thread.bind_bind]
  have hk' := hk.set hρ v
  have hvalue : (Exp.var x).eval (E.scope (th.bind x v)) = .ok v := eval_var (hk'.base _ _ Scope.set_self)
  exact ensures_write (Scope.Le.refl _) (hj _ (hk'.mono (Scope.le_set hx))) hvalue hdest hreaches hown
    (h _ (hk'.mono (Scope.le_set hx)) rfl)

/-- All elements of a small array are written, one after another. -/
theorem ensures_storeArray {dest : ArrayInfo} {array j x : Ident} {t : ScalarType} {vs : List Value}
    {indices : List Exp} (hk : E.Knows B ρ th) (hj : B j = none) (hx : B x = none) (hρj : ρ.scalars j = none)
    (hρx : ρ.scalars x = none) (hjx : j ≠ x) (harray : ρ.arrays array = some (t, vs)) (htyped : ρ.Typed)
    (hlimit : vs.length ≤ E.ctx.loopLimit) (hshape : List.Forall₂ (IsInt B) dest.shape (ints (ds ++ [vs.length])))
    (hindices : List.Forall₂ (IsInt B) indices (ints (coords ds f))) (hf : f < ds.prod)
    (hfits : Fits ((ds ++ [vs.length]).prod : Nat)) (htype : ∀ v ∈ vs, v.type = dest.view.type)
    (hallows : E.Allows dest.view (vs.mapIdx fun k v => ⟨dest.view.slot (f * vs.length + k), v.toBits⟩))
    (h : ∀ th', E.Knows B ρ th' →
      Q th' (ws ++ vs.mapIdx fun k v => ⟨dest.view.slot (f * vs.length + k), v.toBits⟩)) :
    E.Ensures (.loop j (.product [.int (Int64.ofNat vs.length)])
      (ArrayInfo.moveElement ⟨⟨array, t, .thread, false⟩, [.int (Int64.ofNat vs.length)]⟩ dest x (.var j)
        (dest.partIndex indices (.var j)))) Q th ws := by
  obtain ⟨hall, hlength⟩ := htyped array t vs harray
  have hnat := toInt_ofNat_of_fits hlength
  have hbound : IsInt (E.scope th) (.product [.int (Int64.ofNat vs.length)]) vs.length := by
    have one : IsInt (E.scope th) (.int 1) 1 := IsInt.int 1
    have := one.mul (IsInt.int (Int64.ofNat vs.length))
      (by rw [hnat]; exact (Int.one_mul _).symm ▸ hlength)
    rw [hnat] at this
    exact (Int.one_mul (vs.length : Int)) ▸ this
  obtain ⟨n, hn, hn'⟩ := hbound.evalInt
  have hcount : n.toInt.toNat = vs.length := by omega
  rw [Ensures]
  -- After `k` rounds the first `k` elements are written, and what the thread knew it still knows.
  refine ⟨n, hn, hcount ▸ hlimit, fun k th' ws' => E.Knows B ρ th' ∧
    ws' = ws ++ (vs.mapIdx fun k v => ⟨dest.view.slot (f * vs.length + k), v.toBits⟩).take k,
    ⟨hk, by simp⟩, fun k th' ws' hlt hI => ?_, fun th' ws' hI => ?_⟩
  · obtain ⟨hk', rfl⟩ := hI
    rw [hcount] at hlt
    have hloop := hk'.set hρj (.i64 (Int64.ofNat k))
    have hkfits : Fits (k : Int) := by
      unfold Fits at *
      omega
    have hjk : IsInt (B.set j (.i64 (Int64.ofNat k))) (.var j) k := by
      have : IsInt (B.set j (.i64 (Int64.ofNat k))) (.var j) (Int64.ofNat k).toInt := IsInt.var Scope.set_self
      rwa [toInt_ofNat_of_fits hkfits] at this
    have hBj : B.Le (B.set j (.i64 (Int64.ofNat k))) := Scope.le_set hj
    have hxj : B.set j (.i64 (Int64.ofNat k)) x = none := by rw [Scope.set_of_ne hjx, hx]
    have hposition := isInt_partIndex [vs.length] (hshape.imp fun _ _ hd => hd.mono hBj)
      (hindices.imp fun _ _ hi => hi.mono hBj) hf hjk (by simpa using hlt) hfits
    rw [List.prod_singleton] at hposition
    have hmem : (⟨dest.view.slot (f * vs.length + k), vs[k].toBits⟩ : Write) ∈
        vs.mapIdx fun k v => (⟨dest.view.slot (f * vs.length + k), v.toBits⟩ : Write) :=
      List.mem_mapIdx.mpr ⟨k, hlt, rfl⟩
    refine ensures_moveElement hloop hxj hρx hjk (fun _ hk'' => hposition.mono hk''.base) (fun a th'' ha harrays => ?_)
      (hall _ (List.getElem_mem hlt)) (htype _ (List.getElem_mem hlt)) (hallows _ hmem).1 (hallows _ hmem).2
      fun th'' hk'' _ => ⟨hk''.mono hBj, ?_⟩
    · refine ⟨_, by rw [harrays]; exact hk'.arrays array t vs harray, ?_⟩
      exact Buffer.load_ofValues ⟨array, t, .thread, false⟩ ha (List.getElem?_eq_getElem hlt)
        (hall _ (List.getElem_mem hlt))
    · rw [List.append_assoc, List.take_add_one, List.getElem?_mapIdx, List.getElem?_eq_getElem hlt]
      rfl
  · obtain ⟨hk', rfl⟩ := hI
    rw [hcount, List.take_of_length_le (by simp)]
    exact h th' hk'

section
variable {setting : Setting} {s s' : Session} {scope : BodyScope} {dest : ArrayInfo} {code : Stmt} {ws' : List Write}

theorem operandArray?_of_matches (hm : ρ.Matches scope) (value : Operand) :
    (scope.operandArray? value = none ∧ ρ.array? value = none) ∨
      ∃ array t vs, ρ.arrays array = some (t, vs) ∧ ρ.array? value = some vs ∧
        scope.operandArray? value = some ⟨⟨array, t, .thread, false⟩, [.int (Int64.ofNat vs.length)]⟩ := by
  cases value with
  | const v => exact Or.inl ⟨rfl, rfl⟩
  | var array =>
    unfold BodyScope.operandArray? Env.array?
    dsimp only
    rw [hm array]
    cases h : ρ.arrays array with
    | none => exact Or.inl ⟨rfl, rfl⟩
    | some entry => exact Or.inr ⟨array, entry.1, entry.2, h, rfl, rfl⟩

/-- A value is written to the place of a point. -/
theorem ensures_storeValue {indices : List Exp} {value : Operand}
    (hcode : scope.store dest indices value setting s = .ok (code, s')) (hvalue : scope.operandArray? value = none)
    (hshape : List.Forall₂ (IsInt B) dest.shape (ints ds))
    (hindices : List.Forall₂ (IsInt B) indices (ints (coords ds f))) (hf : f < ds.prod) (hfits : Fits (ds.prod : Nat))
    (hx : value.toExp.eval (E.scope th) = .ok v) (htype : v.type = dest.view.type)
    (hreaches : E.store.Reaches dest.view f) (hown : E.own E.id (dest.view.slot f)) (hbase : B.Le (E.scope th))
    (h : Q th (ws ++ [⟨dest.view.slot f, v.toBits⟩])) : E.Ensures code Q th ws := by
  simp only [BodyScope.store, ArrayInfo.checkRank, Lowering.bind_eq_ok, Lowering.check_eq_ok] at hcode
  obtain ⟨_, _, -, hcode⟩ := hcode
  rw [hvalue] at hcode
  obtain ⟨rfl, -⟩ := Lowering.pure_eq_ok.mp hcode
  rw [← List.append_nil ds] at hshape hfits
  have hzero : IsInt B (.int 0) (0 : Nat) := IsInt.int 0
  have hposition := isInt_partIndex [] hshape hindices hf hzero (by decide) hfits
  rw [List.prod_nil, Nat.mul_one, Nat.add_zero] at hposition
  exact ensures_write (Scope.Le.refl _) (hposition.mono hbase) hx htype hreaches hown h

/-- A result is written to the place of a point, or to its part of the destination. -/
theorem ensures_store {indices : List Exp} {value : Operand}
    (hcode : scope.store dest indices value setting s = .ok (code, s')) (hm : ρ.Matches scope) (htyped : ρ.Typed)
    (hB : B.Before s.names) (hρ : ρ.scalars.Before s.names)
    (hlimit : ∀ vs ∈ ρ.array? value, vs.length ≤ E.ctx.loopLimit)
    (hshape : List.Forall₂ (IsInt B) dest.shape (ints (ds ++ ((ρ.array? value).map List.length).toList)))
    (hindices : List.Forall₂ (IsInt B) indices (ints (coords ds f))) (hf : f < ds.prod)
    (hfits : Fits ((ds ++ ((ρ.array? value).map List.length).toList).prod : Nat)) (hglobal : dest.view.space = .global)
    (hws' : (BodyResult.returns value).writesTo ρ dest.view.array dest.view.type f = some ws')
    (hallows : E.Allows dest.view ws') (hk : E.Knows B ρ th) (h : ∀ th', E.Knows B ρ th' → Q th' (ws ++ ws')) :
    E.Ensures code Q th ws := by
  have slot : ∀ p, dest.view.slot p = ⟨.global, dest.view.array, p⟩ := fun p => by rw [View.slot, hglobal]
  -- A scalar has a place; a small array has a part of the destination.
  rcases operandArray?_of_matches hm value with ⟨hnone, hvalue⟩ | ⟨array, t, vs, harray, hvalue, hsome⟩
  · simp only [BodyResult.writesTo, hvalue, Option.bind_eq_bind, Option.bind_eq_some_iff, Option.pure_def,
      Option.some.injEq] at hws'
    obtain ⟨v, hv, rfl⟩ := hws'
    obtain ⟨hx, htype⟩ := ensures_of_valueOf? hk hv
    rw [hvalue, Option.map_none, Option.toList_none, List.append_nil] at hshape hfits
    obtain ⟨hreaches, hown⟩ := hallows _ (List.mem_singleton_self _)
    rw [← slot] at *
    exact ensures_storeValue hcode hnone hshape hindices hf hfits hx htype hreaches hown hk.base (h th hk)
  · simp only [BodyScope.store, ArrayInfo.checkRank, Lowering.bind_eq_ok, Lowering.check_eq_ok] at hcode
    obtain ⟨_, _, ⟨-, rfl⟩, hcode⟩ := hcode
    rw [hsome] at hcode
    simp only [Lowering.bind_eq_ok, Lowering.lift_eq_ok, run_fresh] at hcode
    obtain ⟨_, _, ⟨rfl, rfl⟩, _, _, ⟨rfl, rfl⟩, hcode⟩ := hcode
    obtain ⟨rfl, -⟩ := Lowering.pure_eq_ok.mp hcode
    rw [hvalue] at hshape hfits
    simp only [BodyResult.writesTo, hvalue] at hws'
    split at hws'
    · rename_i htype
      cases hws'
      simp only [← slot] at hallows h
      exact ensures_storeArray hk (hB.fresh (by decide) (Nat.le_refl _)) (hB.fresh (by decide) (Nat.le_succ _))
        (hρ.fresh (by decide) (Nat.le_refl _)) (hρ.fresh (by decide) (Nat.le_succ _))
        (fun e => absurd (numbered_inj.mp e).1 (by decide)) harray htyped (hlimit vs hvalue) hshape hindices hf hfits
        htype hallows h
    · cases hws'

/-! ### Scattered values -/

/-- Each value is written where its indices lie inside the extents. -/
theorem ensures_scatter {view : View} {extents : List Exp} {es : List Int}
    (hextents : List.Forall₂ (IsInt ρ.scalars) extents es) (hfits : Fits es.prod) (hglobal : view.space = .global) :
    ∀ {writes : List (List Operand × Operand)}
    {written : List (Option Write)} {codes : List Stmt} {s s' : Session} {th : Thread} {ws : List Write},
      (writes.mapM fun place => do
        Lowering.check (place.1.length == extents.length) (.scatterRank name place.1.length extents.length) scope.span
        return Stmt.when (indicesInBounds extents (place.1.map Operand.toExp))
          (.write view (.flatten extents (place.1.map Operand.toExp)) place.2.toExp) : Lowering (List Stmt))
        setting s = .ok (codes, s') →
      writes.mapM (BodyResult.scattered ρ view.array view.type es) = some written →
      E.Allows view written.reduceOption → E.Knows B ρ th →
      (∀ th', E.Knows B ρ th' → Q th' (ws ++ written.reduceOption)) → E.EnsuresAll codes Q th ws
  | [], _, _, _, _, th, ws, hcode, hwritten, _, hk, h => by
    rw [List.mapM_nil] at hcode hwritten
    obtain ⟨rfl, -⟩ := Lowering.pure_eq_ok.mp hcode
    cases hwritten
    rw [ensuresAll_nil]
    simpa using h th hk
  | (indices, value) :: writes, _, _, _, _, th, ws, hcode, hwritten, hallows, hk, h => by
    rw [List.mapM_cons] at hcode hwritten
    simp only [Lowering.bind_eq_ok, Lowering.check_eq_ok, Lowering.pure_eq_ok] at hcode
    obtain ⟨_, s₁, ⟨_, _, ⟨hrank, rfl⟩, rfl, rfl⟩, codes, _, hcodes, rfl, rfl⟩ := hcode
    simp only [BodyResult.scattered, Option.bind_eq_bind, Option.bind_eq_some_iff, Option.pure_def,
      Option.some.injEq] at hwritten
    obtain ⟨first, ⟨is, his, hfirst⟩, written, hrest, rfl⟩ := hwritten
    have his := (intsAt?_eq_some.mp his).imp fun _ _ hi => hi.mono hk.scalars
    have hes := hextents.imp fun _ _ hd => hd.mono hk.scalars
    have hlength : es.length = is.length := by
      rw [beq_iff_eq] at hrank
      rw [← hextents.length_eq, ← hrank, ← his.length_eq, List.length_map]
    have htest := isBool_indicesInBounds hes his hlength
    rw [ensuresAll_cons]
    -- The guard of the code is the test by which the meaning leaves a value out.
    refine ensures_when htest (fun hin => ?_) fun hout => ?_
    · have hin := of_decide_eq_true hin
      rw [if_pos hin] at hfirst
      simp only [Option.bind_eq_some_iff, Option.some.injEq] at hfirst
      obtain ⟨v, hv, rfl⟩ := hfirst
      rw [List.reduceOption_cons_of_some] at hallows h
      obtain ⟨hx, htype⟩ := ensures_of_valueOf? hk hv
      obtain ⟨hreaches, hown⟩ := hallows _ List.mem_cons_self
      have hbounds := hin.rowMajor_bounds
      have hflat : IsInt (E.scope th) (.flatten extents (indices.map Operand.toExp))
        ((rowMajor es is).toNat : Int) := by
        rw [Int.toNat_of_nonneg hbounds.1]
        exact isInt_flatten hes his hin hfits
      refine ensures_write (Scope.Le.refl _) hflat hx htype hreaches (by rwa [hglobal]) ?_
      refine ensures_scatter hextents hfits hglobal hcodes hrest (fun w hw => hallows w (List.mem_cons_of_mem _ hw)) hk
        fun th' hk' => ?_
      rw [List.append_assoc, hglobal]
      exact h th' hk'
    · rw [if_neg (of_decide_eq_false hout)] at hfirst
      cases hfirst
      rw [List.reduceOption_cons_of_none] at hallows h
      exact ensures_scatter hextents hfits hglobal hcodes hrest hallows hk h

/-! ### Concatenated elements -/

theorem place?_mono {σ τ : Scope} {split : Split} {p f : Nat} {place : Nat → Nat} (hστ : σ.Le τ)
    (h : split.place? σ p f = some place) : split.place? τ p f = some place := by
  cases split with
  | contiguous => exact h
  | strided stride =>
    simp only [Split.place?, Option.bind_eq_bind, Option.bind_eq_some_iff, intAt?_eq_some] at h ⊢
    obtain ⟨s, hs, h⟩ := h
    exact ⟨s, hs.mono hστ, h⟩

/-- The code for the place of an element of a concatenation. -/
theorem isInt_place {σ : Scope} {split : Split} {perThread x : Exp} {flat j : Ident} {p f k : Nat} {place : Nat → Nat}
    (hx : x = match split with
      | .contiguous => .var flat * perThread + .var j
      | .strided stride => .var flat + .var j * stride.toExp)
    (hplace : split.place? σ p f = some place) (hp : IsInt σ perThread p) (hflat : IsInt σ (.var flat) f)
      (hj : IsInt σ (.var j) k)
    (hfits : Fits (place k : Nat)) : IsInt σ x (place k : Nat) := by
  subst hx
  have fits : ∀ i : Nat, i ≤ place k → Fits (i : Int) := by
    intro i hi
    unfold Fits at *
    omega
  cases split with
  | contiguous =>
    cases hplace
    have := (hflat.mul hp (by exact_mod_cast fits (f * p) (Nat.le_add_right _ _))).add hj (by exact_mod_cast hfits)
    exact_mod_cast this
  | strided stride =>
    simp only [Split.place?, Option.bind_eq_bind, Option.bind_eq_some_iff, intAt?_eq_some, Option.guard_eq_some',
      Option.pure_def,
      Option.some.injEq] at hplace
    obtain ⟨s, hs, _, hpos, rfl⟩ := hplace
    obtain ⟨s, rfl⟩ := Int.eq_ofNat_of_zero_le hpos
    have := hflat.add (hj.mul hs (by exact_mod_cast fits (k * s) (Nat.le_add_left _ _))) (by exact_mod_cast hfits)
    exact_mod_cast this

/-- The elements of a thread are written to their places, as far as the destination reaches. -/
theorem ensures_concatenate {flat array : Ident} {split : Split} {perThread : Exp} {p n : Nat} {place : Nat → Nat}
    {vs : List Value} {t : ScalarType}
    (hcode : scope.concatenate flat dest split perThread array setting s = .ok (code, s')) (hm : ρ.Matches scope)
    (htyped : ρ.Typed) (hB : B.Before s.names) (hρ : ρ.scalars.Before s.names) (hflat : IsInt ρ.scalars (.var flat) f)
    (hp : IsInt ρ.scalars perThread p) (hlimit : p ≤ E.ctx.loopLimit) (harray : ρ.arrays array = some (t, vs))
    (hlength : p ≤ vs.length) (htype : ∀ v ∈ vs, v.type = dest.view.type)
    (hplace : split.place? ρ.scalars p f = some place) (hfits : ∀ j < p, Fits (place j : Nat))
    (hn : IsInt B dest.length n) (hglobal : dest.view.space = .global)
    (hallows : E.Allows dest.view (concatenated dest.view.array n place p vs)) (hk : E.Knows B ρ th)
    (h : ∀ th', E.Knows B ρ th' → Q th' (ws ++ concatenated dest.view.array n place p vs)) :
    E.Ensures code Q th ws := by
  obtain ⟨hall, hsize⟩ := htyped array t vs harray
  have slot : ∀ i, dest.view.slot i = ⟨.global, dest.view.array, i⟩ := fun i => by rw [View.slot, hglobal]
  simp only [BodyScope.concatenate, BodyScope.array, Lowering.bind_eq_ok, Lowering.require_eq_ok, Lowering.lift_eq_ok,
    run_fresh,
    Lowering.pure_eq_ok] at hcode
  obtain ⟨source, _, ⟨source?, _, hsource, rfl, rfl⟩, _, _, ⟨rfl, rfl⟩, _, _, ⟨rfl, rfl⟩, rfl, -⟩ := hcode
  have hsession := session_of_array? hsource
  obtain rfl : source = ⟨⟨array, t, .thread, false⟩, [.int (Int64.ofNat vs.length)]⟩ := by
    unfold BodyScope.array? at hsource
    rw [hm array, harray] at hsource
    exact (Option.some.inj (Lowering.pure_eq_ok.mp hsource).1)
  rw [hsession]
  have hj : B (numbered "j" s.names) = none := hB.fresh (by decide) (Nat.le_refl _)
  have hρj : ρ.scalars (numbered "j" s.names) = none := hρ.fresh (by decide) (Nat.le_refl _)
  have hx : B (numbered "elem" (s.names + 1)) = none := hB.fresh (by decide) (Nat.le_succ _)
  have hρx : ρ.scalars (numbered "elem" (s.names + 1)) = none := hρ.fresh (by decide) (Nat.le_succ _)
  have hjx : numbered "j" s.names ≠ numbered "elem" (s.names + 1) := fun e => absurd (numbered_inj.mp e).1 (by decide)
  obtain ⟨a, ha, ha'⟩ := (hp.mono hk.scalars).evalInt
  have hcount : a.toInt.toNat = p := by omega
  rw [Ensures]
  -- The invariant: the first `k` elements lie at their places, or past the end of the destination.
  refine ⟨a, ha, hcount ▸ hlimit, fun k th' ws' => E.Knows B ρ th' ∧
    ws' = ws ++ concatenated dest.view.array n place k vs,
    ⟨hk, by simp [concatenated]⟩, fun k th' ws' hlt hI => ?_, fun th' ws' hI => ?_⟩
  · obtain ⟨hk', rfl⟩ := hI
    rw [hcount] at hlt
    have hk : k < vs.length := Nat.lt_of_lt_of_le hlt hlength
    have hloop := hk'.set hρj (.i64 (Int64.ofNat k))
    have hBj : B.Le (B.set (numbered "j" s.names) (.i64 (Int64.ofNat k))) := Scope.le_set hj
    have hxj : B.set (numbered "j" s.names) (.i64 (Int64.ofNat k)) (numbered "elem" (s.names + 1)) = none := by
      rw [Scope.set_of_ne hjx, hx]
    have hjk : IsInt (B.set (numbered "j" s.names) (.i64 (Int64.ofNat k))) (.var (numbered "j" s.names)) k := by
      refine .var_nat Scope.set_self ?_
      unfold Fits at *
      omega
    have hposition : ∀ th', E.Knows (B.set (numbered "j" s.names) (.i64 (Int64.ofNat k))) ρ th' →
        IsInt (E.scope th') _ (place k : Nat) := fun th' hk'' =>
      isInt_place rfl (place?_mono hk''.scalars hplace) (hp.mono hk''.scalars) (hflat.mono hk''.scalars)
        (hjk.mono hk''.base) (hfits k hlt)
    have hguard := IsBool.lt (hposition _ hloop) (hn.mono (hBj.trans hloop.base))
    refine ensures_when hguard (fun hin => ?_) fun hout => ?_
    · have hin : place k < n := by simpa using hin
      obtain ⟨hreaches, hown⟩ := hallows _ (mem_concatenated.mpr ⟨k, vs[k], hlt, List.getElem?_eq_getElem hk, hin, rfl⟩)
      refine ensures_moveElement hloop hxj hρx hjk hposition (fun a th'' ha harrays => ?_)
        (hall _ (List.getElem_mem hk))
        (htype _ (List.getElem_mem hk)) hreaches (by rwa [slot]) fun th'' hk'' _ =>
        ⟨hk''.mono hBj, by rw [concatenated_succ hk, if_pos hin, List.append_assoc, slot]⟩
      refine ⟨_, by rw [harrays]; exact hk'.arrays array t vs harray, ?_⟩
      exact Buffer.load_ofValues ⟨array, t, .thread, false⟩ ha (List.getElem?_eq_getElem hk)
        (hall _ (List.getElem_mem hk))
    · have hout : ¬place k < n := by simpa using hout
      exact ⟨hloop.mono hBj, by rw [concatenated_succ hk, if_neg hout, List.append_nil]⟩
  · obtain ⟨hk', rfl⟩ := hI
    rw [hcount]
    exact h th' hk'

/-! ### All results -/

theorem array_eq_ok_of_finds {env : HostEnv} {a dest : ArrayInfo} (henv : setting.env = env)
    (ha : scope.Finds env name a) (h : scope.array name setting s = .ok (dest, s')) : dest = a ∧ s' = s := by
  simp only [BodyScope.array, Lowering.bind_eq_ok, Lowering.require_eq_ok] at h
  obtain ⟨dest?, s₁, h, rfl, rfl⟩ := h
  refine ⟨?_, session_of_array? h⟩
  unfold BodyScope.array? at h
  rcases ha with ha | ⟨hnone, type, shape, harray, rfl⟩
  · rw [ha] at h
    exact Option.some.inj (Lowering.pure_eq_ok.mp h).1
  · rw [hnone] at h
    simp only [Lowering.globalArray?, Lowering.bind_eq_ok, Lowering.read_eq_ok, Lowering.get_eq_ok,
      Lowering.pure_eq_ok] at h
    obtain ⟨_, _, ⟨rfl, rfl⟩, _, _, ⟨rfl, rfl⟩, h, -⟩ := h
    rw [SegKernel.globalArray?, henv, harray] at h
    exact Option.some.inj h

theorem array_eq_ok {H : Surroundings} {shape : List Operand} {dest : ArrayInfo} (henv : setting.env = H.env)
    (hm : ρ.Matches scope) (harray : H.env.arrays[name]? = some (type, shape)) (hname : ρ.arrays name = none)
    (h : scope.array name setting s = .ok (dest, s')) :
    dest = ⟨⟨name, type, .global, false⟩, shape.map Operand.toExp⟩ ∧ s' = s :=
  array_eq_ok_of_finds henv (.inr ⟨by rw [hm name, hname, Option.map_none], type, shape, harray, rfl⟩) h

/-- The code of a result makes the writes that the result means. -/
theorem ensures_threadResult {H : Surroundings} {space : IterationSpace} {shape : List Operand} {result : BodyResult}
    (hcode : scope.threadResult space name result setting s = .ok (code, s')) (henv : setting.env = H.env)
    (hm : ρ.Matches scope) (htyped : ρ.Typed) (hB : B.Before s.names) (hρ : ρ.scalars.Before s.names)
    (hhost : H.scope.Le B) (hindices : List.Forall₂ (IsInt B) space.indexExps (ints (coords ds f))) (hf : f < ds.prod)
    (harray : H.env.arrays[name]? = some (type, shape)) (hname : ρ.arrays name = none)
    (hlodged : result.Lodged H E.ctx.loopLimit space.flat ds f ρ shape)
    (hws' : result.storesTo H ρ name type shape f = some ws') (hallows : E.Allows ⟨name, type, .global, false⟩ ws')
    (hk : E.Knows B ρ th) (h : ∀ th', E.Knows B ρ th' → Q th' (ws ++ ws')) : E.Ensures code Q th ws := by
  simp only [BodyScope.threadResult, Lowering.bind_eq_ok] at hcode
  obtain ⟨dest, s₁, hdest, hcode⟩ := hcode
  obtain ⟨rfl, rfl⟩ := array_eq_ok henv hm harray hname hdest
  cases result with
  | returns value =>
    obtain ⟨hshape, hfits, hlimit⟩ := hlodged
    exact ensures_store hcode hm htyped hB hρ hlimit (hshape.imp fun _ _ hd => hd.mono hhost) hindices hf hfits rfl hws'
      hallows hk h
  | write extents writes =>
    simp only [BodyScope.scatter, Lowering.bind_eq_ok, Lowering.markScatter, Lowering.modify_eq_ok,
      Lowering.pure_eq_ok] at hcode
    obtain ⟨_, _, rfl, codes, _, hcodes, rfl, rfl⟩ := hcode
    simp only [BodyResult.storesTo, BodyResult.writesTo, Option.bind_eq_bind, Option.bind_eq_some_iff, Option.pure_def,
      Option.some.injEq] at hws'
    obtain ⟨es, hes, written, hwritten, rfl⟩ := hws'
    rw [ensures_block]
    exact ensures_scatter (intsAt?_eq_some.mp hes) (hlodged es hes) rfl hcodes hwritten hallows hk h
  | tile tiles array => exact hlodged.elim
  | concat split perThread array =>
    obtain ⟨es, p, place, t, vs, hes, hp, hplace, hvs, hlength, htype, rfl⟩ :=
      BodyResult.storesTo_concat_eq_some.mp hws'
    obtain ⟨hflat, hextents, hturns⟩ := hlodged
    obtain ⟨hlimit, hfits⟩ := hturns p hp
    have hsize : IsInt B (.product (shape.map Operand.toExp)) es.prod := by
      have := Surroundings.extents?_eq_some.mp hes
      exact (isInt_product (List.forall₂_map_right_iff.mp this) (hextents es hes)).mono hhost
    exact ensures_concatenate hcode hm htyped hB hρ hflat hp hlimit hvs hlength htype hplace (hfits place hplace)
      hsize rfl hallows hk h

theorem names_le_of_threadResult {H : Surroundings} {limit : Nat} {space : IterationSpace} {shape : List Operand}
    {result : BodyResult} (hlodged : result.Lodged H limit space.flat ds f ρ shape)
    (hcode : scope.threadResult space name result setting s = .ok (code, s')) : s.names ≤ s'.names := by
  simp only [BodyScope.threadResult, BodyScope.array, Lowering.bind_eq_ok, Lowering.require_eq_ok] at hcode
  obtain ⟨dest, s₁, ⟨dest?, s₂, hdest, -, rfl⟩, hcode⟩ := hcode
  rw [← session_of_array? hdest]
  -- Only an element that is moved takes names: the position and the element.
  cases result with
  | returns value =>
    simp only [BodyScope.store, ArrayInfo.checkRank, Lowering.bind_eq_ok, Lowering.check_eq_ok] at hcode
    obtain ⟨_, _, ⟨-, rfl⟩, hcode⟩ := hcode
    cases hsource : scope.operandArray? value with
    | none =>
      rw [hsource] at hcode
      obtain ⟨-, rfl⟩ := Lowering.pure_eq_ok.mp hcode
      exact Nat.le_refl _
    | some source =>
      rw [hsource] at hcode
      simp only [Lowering.bind_eq_ok, Lowering.lift_eq_ok, run_fresh] at hcode
      obtain ⟨_, _, ⟨rfl, rfl⟩, _, _, ⟨rfl, rfl⟩, hcode⟩ := hcode
      obtain ⟨-, rfl⟩ := Lowering.pure_eq_ok.mp hcode
      exact Nat.le_add_right _ 2
  | write extents writes =>
    simp only [BodyScope.scatter, Lowering.bind_eq_ok, Lowering.markScatter, Lowering.modify_eq_ok,
      Lowering.pure_eq_ok] at hcode
    obtain ⟨_, _, rfl, codes, s₃, hcodes, -, rfl⟩ := hcode
    have hsession := Lowering.session_of_mapM (fun a s b s' h => by
      simp only [Lowering.bind_eq_ok, Lowering.check_eq_ok, Lowering.pure_eq_ok] at h
      obtain ⟨_, _, ⟨-, rfl⟩, -, rfl⟩ := h
      rfl) hcodes
    exact hsession ▸ Nat.le_refl _
  | tile tiles array => exact hlodged.elim
  | concat split perThread array =>
    simp only [BodyScope.concatenate, BodyScope.array, Lowering.bind_eq_ok, Lowering.require_eq_ok, Lowering.lift_eq_ok,
      run_fresh,
      Lowering.pure_eq_ok] at hcode
    obtain ⟨source, _, ⟨source?, _, hsource, rfl, rfl⟩, _, _, ⟨rfl, rfl⟩, _, _, ⟨rfl, rfl⟩, -, rfl⟩ := hcode
    rw [session_of_array? hsource]
    exact Nat.le_add_right _ 2

/-- The code of all results of a point makes the writes that they mean. -/
theorem ensures_threadResults {H : Surroundings} {space : IterationSpace} (henv : setting.env = H.env)
    (hm : ρ.Matches scope) (htyped : ρ.Typed) (hhost : H.scope.Le B)
    (hindices : List.Forall₂ (IsInt B) space.indexExps (ints (coords ds f))) (hf : f < ds.prod) :
    ∀ {results : BoundResults} {written : List (List Write)} {codes : List Stmt} {s s' : Session} {th : Thread}
      {ws : List Write},
      (results.mapM fun (p, result) => scope.threadResult space p.name result : Lowering (List Stmt)) setting s =
        .ok (codes, s') →
      results.mapM (BodyResult.storesOn H ρ f) = some written →
      B.Before s.names → ρ.scalars.Before s.names → (∀ r ∈ results, ρ.arrays r.1.name = none) →
      (∀ r ∈ results, ∀ type shape, H.env.arrays[r.1.name]? = some (type, shape) →
        r.2.Lodged H E.ctx.loopLimit space.flat ds f ρ shape) →
      (∀ r ∈ results, ∀ type shape ws, H.env.arrays[r.1.name]? = some (type, shape) →
        r.2.storesTo H ρ r.1.name type shape f = some ws → E.Allows ⟨r.1.name, type, .global, false⟩ ws) →
      E.Knows B ρ th → (∀ th', E.Knows B ρ th' → Q th' (ws ++ written.flatten)) → E.EnsuresAll codes Q th ws
  | [], _, _, _, _, th, ws, hcode, hwritten, _, _, _, _, _, hk, h => by
    rw [List.mapM_nil] at hcode hwritten
    obtain ⟨rfl, -⟩ := Lowering.pure_eq_ok.mp hcode
    cases hwritten
    rw [ensuresAll_nil]
    simpa using h th hk
  | (p, result) :: results, _, _, _, _, th, ws, hcode, hwritten, hB, hρ, hnames, hlodged, hallows, hk, h => by
    rw [List.mapM_cons] at hcode hwritten
    simp only [Lowering.bind_eq_ok, Lowering.pure_eq_ok] at hcode
    obtain ⟨code, s₁, hcode, codes, _, hcodes, rfl, rfl⟩ := hcode
    simp only [BodyResult.storesOn, Option.bind_eq_bind, Option.bind_eq_some_iff, Option.pure_def,
      Option.some.injEq] at hwritten
    obtain ⟨first, ⟨⟨type, shape⟩, harray, hfirst⟩, written, hrest, rfl⟩ := hwritten
    have hplace := hlodged _ List.mem_cons_self type shape harray
    have hle := names_le_of_threadResult hplace hcode
    rw [ensuresAll_cons]
    refine ensures_threadResult hcode henv hm htyped hB hρ hhost hindices hf harray (hnames _ List.mem_cons_self) hplace
      hfirst (hallows _ List.mem_cons_self type shape first harray hfirst) hk fun th' hk' => ?_
    refine ensures_threadResults henv hm htyped hhost hindices hf hcodes hrest (hB.mono hle) (hρ.mono hle)
      (fun r hr => hnames r (List.mem_cons_of_mem _ hr)) (fun r hr => hlodged r (List.mem_cons_of_mem _ hr))
      (fun r hr => hallows r (List.mem_cons_of_mem _ hr)) hk' fun th'' hk'' => ?_
    rw [List.append_assoc, ← List.flatten_cons]
    exact h th'' hk''

end

end Solo
end SegKernel
