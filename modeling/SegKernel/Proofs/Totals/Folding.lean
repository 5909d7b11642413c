import SegKernel.Lowering.Reduction
import SegKernel.Proofs.Collectives.Registers
import SegKernel.Proofs.Lowering.Operations
import SegKernel.Proofs.Lowering.Yields
import SegKernel.Proofs.Maps.Groups
import SegKernel.Proofs.Totals.Shares

/-! The code with which a thread combines its points. It has variables for the components of all operators; they
    start as the neutral elements, and each point of the thread is folded into them. -/

namespace SegKernel
open Exp

theorem forall₂_of_append {α β : Type} {R : α → β → Prop} {as as' : List α} {bs bs' : List β}
    (hlength : as.length = bs.length) (h : List.Forall₂ R (as ++ as') (bs ++ bs')) :
    List.Forall₂ R as bs ∧ List.Forall₂ R as' bs' := by
  have left := List.forall₂_take_append _ _ _ h
  have right := List.forall₂_drop_append _ _ _ h
  rw [List.take_left' hlength] at left
  rw [List.drop_left' hlength] at right
  exact ⟨left, right⟩

theorem Lambda.length_tuple {l : Lambda} (x : l.Tuple) : x.1.length = l.resultTypes.length :=
  (List.length_map Value.type).symm.trans (congrArg List.length x.2)

namespace Total

/-- What some points contribute to all operators, each of them combined from left to right. -/
def allOver (Ts : List Total) (points : List Nat) : List Value := Ts.flatMap fun T => (T.foldOver points).1

/-- What a point contributes to all operators. -/
def contributions (Ts : List Total) (i : Nat) : List Value := Ts.flatMap fun T => (T.value i).1

/-- The types of the components of all operators. -/
def types (Ts : List Total) : List ScalarType := Ts.flatMap (·.combiner.lambda.resultTypes)

/-- What a group combines of what its threads have, up to the last of them. -/
def combined (Ts : List Total) (share : Nat → List Nat) (last : Nat) : List Value :=
  Ts.flatMap fun T => (foldSpan T.op (fun t => T.foldOver (share t)) 0 last).1

end Total

namespace Accumulator

/-- The accumulator has the operator of a total, and a variable for each of its components. -/
structure Serves (a : Accumulator) (T : Total) : Prop where
  op : a.op = T.combiner
  length : a.vars.length = T.combiner.lambda.resultTypes.length

/-- The variables of some accumulators. -/
abbrev names (accs : List Accumulator) : List Ident := accs.flatMap (·.vars)

/-- There is a variable for each component of all totals. -/
theorem length_names {accs : List Accumulator} {Ts : List Total} (h : List.Forall₂ Serves accs Ts) (points : List Nat) :
    (names accs).length = (Total.allOver Ts points).length := by
  induction h with
  | nil => rfl
  | cons hserves _ ih =>
    rw [names, List.flatMap_cons, Total.allOver, List.flatMap_cons, List.length_append, List.length_append,
      hserves.length,
      Lambda.length_tuple]
    exact congrArg _ ih

end Accumulator

theorem Registers.append {n m k count count' : Nat} {names others : List Ident} (h : Registers n m count names)
    (h' : Registers m k count' others) (hn : n ≤ m) (hm : m ≤ k) :
    Registers n k (count + count') (names ++ others) where
  taken x hx := (List.mem_append.mp hx).elim (fun hx => (h.taken x hx).mono (Nat.le_refl n) hm)
    fun hx => (h'.taken x hx).mono hn (Nat.le_refl k)
  nodup := List.nodup_append'.mpr ⟨h.nodup, h'.nodup, fun x hx hx' => h.disjoint h' (Nat.le_refl m) x hx hx'⟩
  length := by rw [List.length_append, h.length, h'.length]

namespace Scope
variable {σ β : Scope} {p : Ident → Prop}

open Classical in
/-- What is known of names that are not in `p`. -/
noncomputable def without (σ : Scope) (p : Ident → Prop) : Scope := fun x => if p x then none else σ x

theorem without_of {x : Ident} (hx : p x) : σ.without p x = none := if_pos hx

theorem without_of_not {x : Ident} (hx : ¬p x) : σ.without p x = σ x := if_neg hx

theorem without_le : (σ.without p).Le σ := by
  intro x v hx
  unfold without at hx
  split at hx
  · cases hx
  · exact hx

theorem le_without (h : β.Le σ) (hβ : ∀ x, p x → β x = none) : β.Le (σ.without p) := by
  intro x v hx
  rw [without_of_not fun hp => by simp [hβ x hp] at hx]
  exact h x v hx

end Scope

/-! ### Variables of accumulators -/

section
variable {setting : Setting} {s s' : Session} {Ts : List Total} {accs : List Accumulator}

/-- Each total gets an accumulator with variables of its own. -/
theorem exists_of_accumulators (hTs : ∀ T ∈ Ts, T.combiner.neutral.length = T.combiner.lambda.resultTypes.length)
    (h : ((Ts.map (·.combiner)).mapM fun op => (Accumulator.ofOp op : Lowering _)) setting s = .ok (accs, s')) :
    List.Forall₂ Accumulator.Serves accs Ts ∧ s.names ≤ s'.names ∧
      Registers s.names s'.names (Accumulator.names accs).length (Accumulator.names accs) ∧ s'.program = s.program := by
  induction Ts generalizing accs s with
  | nil =>
    obtain ⟨rfl, rfl⟩ := Lowering.pure_eq_ok.mp h
    exact ⟨.nil, Nat.le_refl _, ⟨by simp, .nil, rfl⟩, rfl⟩
  | cons T Ts ih =>
    rw [List.map_cons, List.mapM_cons] at h
    simp only [Lowering.bind_eq_ok, Lowering.lift_eq_ok, Lowering.pure_eq_ok] at h
    obtain ⟨a, _, ⟨rfl, rfl⟩, rest, _, hrest, rfl, rfl⟩ := h
    obtain ⟨hserves, hle, hregisters, hprogram⟩ := ih (fun T' hT' => hTs T' (List.mem_cons_of_mem T hT')) hrest
    obtain ⟨hle', first⟩ := Fresh.At.registers (n := s.names) (show "acc" ∈ _ by decide) T.combiner.neutral
    refine ⟨.cons ⟨rfl, first.length.trans (hTs T List.mem_cons_self)⟩ hserves, hle'.trans hle, ?_, hprogram⟩
    have both := first.append hregisters hle' hle
    exact ⟨both.taken, both.nodup, rfl⟩

end

namespace Solo
variable {E : Solo} {σ β : Scope} {th : Thread} {Q : Claim} {ws : List Write} {Ts : List Total}
  {accs : List Accumulator}

theorem declare_eq (a : Accumulator) {vs : List Value} (htypes : vs.map Value.type = a.op.lambda.resultTypes) :
    a.declare = .block (((a.vars.zip (a.op.neutral.map Operand.toExp)).zip (vs.map Value.type)).map fun p =>
      .declareInit p.1.1 p.2 p.1.2) := by
  unfold Accumulator.declare
  rw [htypes]
  congr 1
  refine List.ext_getElem (by simp; omega) fun i hi hi' => ?_
  simp

/-- The variables start as the neutral elements. -/
theorem ensures_declares : ∀ {accs : List Accumulator} {Ts : List Total} {σ : Scope} {th : Thread} {rest : List Stmt},
    List.Forall₂ Accumulator.Serves accs Ts → (∀ T ∈ Ts, T.Lawful σ) → σ.Le (E.scope th) →
    (Accumulator.names accs).Nodup → (∀ x ∈ Accumulator.names accs, σ x = none) →
    (∀ th', σ.Le (E.scope th') → (E.scope th').Sees (Accumulator.names accs) (Total.allOver Ts []) →
      th'.arrays = th.arrays → E.EnsuresAll rest Q th' ws) →
    E.EnsuresAll (accs.map Accumulator.declare ++ rest) Q th ws
  | [], _, σ, th, rest, .nil, _, hσ, _, _, h => h th hσ .nil rfl
  | a :: accs, T :: Ts, σ, th, rest, .cons hserves hrest, hTs, hσ, hnodup, hnew, h => by
    obtain ⟨op, vars⟩ := a
    obtain ⟨rfl, hlength⟩ := hserves
    have hT := hTs T List.mem_cons_self
    rw [Accumulator.names, List.flatMap_cons, List.nodup_append'] at hnodup
    obtain ⟨hvars, hnames, hapart⟩ := hnodup
    have hunknown : ∀ x ∈ vars, σ x = none := fun x hx => hnew x (List.mem_append_left _ hx)
    rw [List.map_cons, List.cons_append, ensuresAll_cons, declare_eq _ T.unit.2, ensures_block,
      ← List.append_nil (List.map _ _)]
    refine ensuresAll_declareInits hσ hT.neutral ?_ hvars hunknown fun th₁ hσ₁ hsees ha => ?_
    · rw [hlength, Lambda.length_tuple]
    rw [ensuresAll_nil]
    have hle : σ.Le (σ.withAll vars T.unit.1) := Scope.le_withAll hvars hunknown
    refine ensures_declares hrest (fun T' hT' => (hTs T' (List.mem_cons_of_mem T hT')).mono hle)
      (Scope.withAll_le hσ₁ hsees)
      hnames (fun x hx => ?_) fun th₂ hσ₂ hsees₂ ha₂ => h th₂ (hle.trans hσ₂) ?_ (ha₂.trans ha)
    · rw [Scope.withAll_of_not_mem fun hx' => hapart hx' hx, hnew x (List.mem_append_right _ hx)]
    · have first : (σ.withAll vars T.unit.1).Sees vars T.unit.1 :=
        Scope.sees_withAll hvars (by rw [hlength, Lambda.length_tuple])
      exact List.rel_append (first.mono hσ₂) hsees₂

/-- A point is folded into the variables. -/
theorem ensures_foldAll {setting : Setting} {points : List Nat} {i : Nat} :
    ∀ {accs : List Accumulator} {Ts : List Total}
    {values : List Exp} {s s' : Session} {code : List Stmt}, List.Forall₂ Accumulator.Serves accs Ts →
    Accumulator.foldAll accs values setting s = .ok (code, s') → ∀ {β : Scope} {th : Thread} {Q : Claim},
      β.Before s.names →
    β.Le (E.scope th) → (∀ T ∈ Ts, T.Lawful β) → Values β values (Total.contributions Ts i) →
    (Accumulator.names accs).Nodup → (∀ x ∈ Accumulator.names accs, β x = none ∧ ¬New s.names x ∧ E.Free x) →
    (E.scope th).Sees (Accumulator.names accs) (Total.allOver Ts points) →
    (∀ th', β.Le (E.scope th') → (E.scope th').Sees (Accumulator.names accs) (Total.allOver Ts (points ++ [i])) →
      Q th' ws) → E.EnsuresAll code Q th ws
  | [], _, _, _, _, _, .nil, hcode, β, th, Q, _, hβ, _, _, _, _, hsees, h => by
    obtain ⟨rfl, -⟩ := Lowering.pure_eq_ok.mp hcode
    exact h th hβ .nil
  | a :: accs, T :: Ts, values, s, s', _, .cons hserves hrest, hcode, β, th, Q, hbefore, hβ, hTs, hvalues, hnodup,
      hnames, hsees, h => by
    obtain ⟨op, vars⟩ := a
    obtain ⟨rfl, hlength⟩ := hserves
    have hT := hTs T List.mem_cons_self
    simp only [Accumulator.foldAll, Lowering.bind_eq_ok, Lowering.inRange_eq_ok, Lowering.lift_eq_ok,
      Lowering.pure_eq_ok] at hcode
    obtain ⟨_, s, ⟨-, rfl⟩, _, _, ⟨rfl, rfl⟩, code, _, hcode, rfl, rfl⟩ := hcode
    obtain ⟨hle, assigns⟩ := ensures_assign (n := s.names) T.combiner.lambda (vars.map .var)
      (values.take vars.length) vars
    rw [Accumulator.names, List.flatMap_cons, List.nodup_append'] at hnodup
    obtain ⟨hvars, hnodup', hapart⟩ := hnodup
    have hlengths : ∀ x : T.combiner.lambda.Tuple, x.1.length = vars.length := fun x =>
      (Lambda.length_tuple x).trans hlength.symm
    obtain ⟨left, right⟩ : (E.scope th).Sees vars (T.foldOver points).1 ∧ (E.scope th).Sees (Accumulator.names accs)
        (Total.allOver Ts points) := forall₂_of_append (hlengths (T.foldOver points)).symm hsees
    have hcount : (T.value i).1.length = vars.length := hlengths _
    have first : Values β (values.take vars.length) (T.value i).1 := by
      have := List.forall₂_take vars.length hvalues
      rwa [Total.contributions, List.flatMap_cons, List.take_left' hcount] at this
    have others : Values β (values.drop vars.length) (Total.contributions Ts i) := by
      have := List.forall₂_drop vars.length hvalues
      rwa [Total.contributions, List.flatMap_cons, List.drop_left' hcount] at this
    have known := fun x hx => hnames x (List.mem_append_left _ hx)
    have hβτ : β.Le ((E.scope th).without (New s.names)) := Scope.le_without hβ hbefore
    rw [ensuresAll_cons]
    refine assigns E _ th _ ws _ _ _ (T.foldOver points).1 (fun x => Scope.without_of) Scope.without_le
      (left.imp fun x hx v hv => (Scope.without_of_not (known x hx).2.1).trans hv).values (first.mono hβτ)
        ((hT.computes.mono hβτ) (T.foldOver points) (T.value i)) (T.op _ _).2 hvars
      (fun x hx => (known x hx).2.1) (fun x hx => (known x hx).2.2) left (T.foldOver points).2 fun th₁ ha _ => ?_
    have hβ₁ := ha.le hβ hbefore fun x hx => (known x hx).1
    have hadd : β.Le (β.withAll vars (T.op (T.foldOver points) (T.value i)).1) :=
      Scope.le_withAll hvars fun x hx => (known x hx).1
    refine ensures_foldAll hrest hcode (β := β.withAll vars (T.op (T.foldOver points) (T.value i)).1) (fun x hx => ?_)
      (Scope.withAll_le hβ₁ ha.sees) (fun T' hT' => (hTs T' (List.mem_cons_of_mem T hT')).mono hadd)
        (others.mono hadd) hnodup'
      (fun x hx => ?_) (ha.keeps right (fun x hx hx' => hapart hx' hx) fun x hx =>
        (hnames x (List.mem_append_right _ hx)).2.1)
      fun th₂ hβ₂ hsees₂ => h th₂ (hadd.trans hβ₂) ?_
    · have hx := hx.mono hle
      rw [Scope.withAll_of_not_mem fun hmem => (known x hmem).2.1 hx, hbefore x hx]
    · obtain ⟨hnew, hold', hfree⟩ := hnames x (List.mem_append_right _ hx)
      exact ⟨by rw [Scope.withAll_of_not_mem fun hx' => hapart hx' hx, hnew], fun hx => hold' (hx.mono hle), hfree⟩
    · have first : (β.withAll vars (T.op (T.foldOver points) (T.value i)).1).Sees vars _ :=
        Scope.sees_withAll hvars (hlengths _).symm
      rw [Total.allOver, List.flatMap_cons, T.foldOver_concat]
      exact List.rel_append (first.mono hβ₂) hsees₂

/-! ### The loop over the points of a thread -/

/-- A thread visits its points, one after another. What it does at one of them is given. -/
theorem ensures_share {s : Sharing} {threads p n t : Nat} {k : Ident} {bound point count : Exp} {visit : Stmt}
    {names : List Ident} (W : Nat → List Write) (hbase : β.Le (E.scope th)) (hk : β k = none) (hknames : k ∉ names)
    (hbound : IsInt β bound p) (hp : p ≤ E.ctx.loopLimit) (hcount : IsInt β count n)
    (hpoint : ∀ j < p, IsInt (β.set k (.i64 (Int64.ofNat j))) point (s.point threads p t j : Nat))
    (hsees : (E.scope th).Sees names (Total.allOver Ts []))
    (hvisit : ∀ j < p, s.point threads p t j < n → ∀ points th Q ws, (β.set k (.i64 (Int64.ofNat j))).Le (E.scope th) →
      (E.scope th).Sees names (Total.allOver Ts points) → (∀ w ∈ ws, ∃ i, w ∈ W i) → (∀ th', β.Le (E.scope th') →
        (E.scope th').Sees names (Total.allOver Ts (points ++ [s.point threads p t j])) →
          Q th' (ws ++ W (s.point threads p t j))) →
      E.Ensures visit Q th ws)
    (h : ∀ th', β.Le (E.scope th') → (E.scope th').Sees names (Total.allOver Ts (s.share threads p n t)) →
      Q th' ((s.share threads p n t).flatMap W)) : E.Ensures (.loop k bound (.when (point.lt count) visit))
        Q th [] := by
  obtain ⟨b, hb, hb'⟩ := (hbound.mono hbase).evalInt
  have hturns : b.toInt.toNat = p := by omega
  rw [Ensures]
  refine ⟨b, hb, hturns ▸ hp, fun j th' ws => β.Le (E.scope th') ∧
    (E.scope th').Sees names (Total.allOver Ts (s.upTo threads p n t j)) ∧ ws = (s.upTo threads p n t j).flatMap W,
    ⟨hbase, hsees, rfl⟩, fun j th' ws hj hI => ?_, fun th' ws hI => ?_⟩
  · obtain ⟨hβ, hsees, rfl⟩ := hI
    rw [hturns] at hj
    have hβ' : (β.set k (.i64 (Int64.ofNat j))).Le (E.scope (th'.bind k (.i64 (Int64.ofNat j)))) :=
      Thread.set_le_scope_bind hβ
    have hle : β.Le (β.set k (.i64 (Int64.ofNat j))) := Scope.le_set hk
    have hsees' : (E.scope (th'.bind k (.i64 (Int64.ofNat j)))).Sees names
      (Total.allOver Ts (s.upTo threads p n t j)) := by
      refine hsees.imp fun x hx v hv => ?_
      have hne : k ≠ x := fun e => hknames (e ▸ hx)
      rw [show E.scope (th'.bind k _) = (E.scope th').set k _ from funext fun y => th'.scope_bind E.ctx.captured k _ y,
        Scope.set_of_ne hne, hv]
    have hguard := IsBool.lt ((hpoint j hj).mono hβ') (hcount.mono (hle.trans hβ'))
    simp only [Sharing.upTo_succ, List.flatMap_append]
    refine ensures_when hguard (fun hin => ?_) fun hout => ?_
    · have hin : s.point threads p t j < n := by simpa using hin
      refine hvisit j hj hin _ _ _ _ hβ' hsees' (fun w hw => ?_) fun th'' hβ'' hsees'' => ?_
      · obtain ⟨i, -, hi⟩ := List.mem_flatMap.mp hw
        exact ⟨i, hi⟩
      · rw [if_pos hin, List.flatMap_singleton]
        exact ⟨hβ'', hsees'', rfl⟩
    · have hout : ¬s.point threads p t j < n := by simpa using hout
      rw [if_neg hout, List.append_nil, List.flatMap_nil, List.append_nil]
      exact ⟨hle.trans hβ', hsees', rfl⟩
  · obtain ⟨hβ, hsees, rfl⟩ := hI
    rw [hturns] at hsees ⊢
    exact h th' hβ hsees

end Solo

/-! ## The points of a thread

What a thread of a reduction does at one of its points. In the first stage it runs the body of the
point, stores what is mapped, and folds what the point contributes into its accumulators. In the second
stage a point is a group of the first stage, and its contribution is read from arrays. -/
open Exp

/-- The value of a result that is a plain operand. -/
def BodyResult.value? (ρ : Env) : BodyResult → Option Value
  | returns value => (value.toExp.eval ρ.scalars).toOption
  | _ => none

namespace Segmented

/-- The operation without its first results. -/
def rest (op : SegOp) (c : Nat) : SegOp := { op with results := op.results.drop c }

/-- The points of an operation, if there are any, store some values. No slot is stored to by two points, and memory has
    room for all values. -/
structure Deposits (op : SegOp) (H : Surroundings) (pattern : List PatElem) (ds : List Nat) (limit : Nat) : Prop where
  lodged : ∀ f < ds.prod, ∀ ρ, BodyStm.evalAll H (op.start H ds f) op.stms = some ρ →
    ∀ r ∈ pattern.zip op.results, ∀ type shape, H.env.arrays[r.1.name]? = some (type, shape) →
      r.2.Lodged H limit op.space.flat ds f ρ shape
  stored : ∀ f < ds.prod, (op.storesAt H pattern ds f).isSome
  apart : ∀ {f f' : Nat} {w w' : Write}, w ∈ op.visit H pattern ds f → w' ∈ op.visit H pattern ds f' →
    w.slot = w'.slot →
    f = f' ∧ w = w'
  room : ∀ f, ∀ w ∈ op.visit H pattern ds f, ∀ type shape, H.env.arrays[w.slot.array]? = some (type, shape) →
    (Store.ofGlobal H.memory).Reaches ⟨w.slot.array, type, .global, false⟩ w.slot.position

/-- A reduction of `n` points. Each point evaluates, and contributes a tuple to each total; the other results are
    mapped. The body reads no array that is written, and each total has a destination for each of its components. -/
structure Reduces (op : SegOp) (H : Surroundings) (pattern : List PatElem) (Ts : List Total) (n limit : Nat) :
    Prop where
  kind : op.kind = .reduce (Ts.map (·.combiner))
  wellNamed : op.WellNamed H.env
  indices : ∀ stm ∈ op.stms, ∀ x ∈ stm.binds, x ∉ op.space.indices
  plain : ∀ stm ∈ op.stms, stm.Plain fun array => array ∉ pattern.map (·.name) ∧ ¬Generated array
  literals : ∀ stm ∈ op.stms, ∀ x ∈ stm.literal?, x ∉ pattern.map (·.name)
  extents : List.Forall₂ (IsInt H.scope) op.space.dimExps (ints [n])
  sizes : ∀ (array : Ident) (type : ScalarType) (shape : List Operand) (es : List Int),
    H.env.arrays[array]? = some (type, shape) → Exp.intsAt? H.scope (shape.map Operand.toExp) = some es → Fits es.prod
  lawful : ∀ T ∈ Ts, T.Lawful H.scope
  ordered : (∀ T ∈ Ts, T.combiner.commutative = true) → ∀ T ∈ Ts, Std.Commutative T.op
  distinct : (pattern.map (·.name)).Nodup
  dests : List.Forall₂ (fun p type => (∃ shape, H.env.arrays[p.name]? = some (type, shape)) ∧
    (Store.ofGlobal H.memory).Reaches ⟨p.name, type, .global, false⟩ 0) (pattern.take (Total.types Ts).length)
      (Total.types Ts)
  contributes : ∀ f < n, ∃ ρ, BodyStm.evalAll H (op.start H [n] f) op.stms = some ρ ∧
    (op.results.take (Total.types Ts).length).mapM (·.value? ρ) = some (Total.contributions Ts f)
  deposits : (op.rest (Total.types Ts).length).Deposits H (pattern.drop (Total.types Ts).length) [n] limit

/-- What a reduction stores at a point besides what the point contributes. -/
def mapped (op : SegOp) (H : Surroundings) (pattern : List PatElem) (Ts : List Total) (n f : Nat) : List Write :=
  (op.rest (Total.types Ts).length).visit H (pattern.drop (Total.types Ts).length) [n] f

theorem mapped_slot {op : SegOp} {H : Surroundings} {pattern : List PatElem} {Ts : List Total} {n f : Nat} {w : Write}
    (h : w ∈ op.mapped H pattern Ts n f) : w.slot.space = .global ∧ w.slot.array ∈ pattern.map (·.name) := by
  obtain ⟨hspace, harray⟩ := slot_of_mem_visit h
  exact ⟨hspace, ((List.drop_sublist _ _).map _).subset harray⟩

/-- No array that is mapped to has a generated name. -/
theorem mapped_not_generated {op : SegOp} {H : Surroundings} {pattern : List PatElem} {Ts : List Total} {n f : Nat}
    {w : Write} (hop : op.WellNamed H.env) (h : w ∈ op.mapped H pattern Ts n f) : ¬Generated w.slot.array := by
  obtain ⟨r, -, hknown, -, harray⟩ := result_of_mem_visit h
  exact harray ▸ hop.hostNames _ (Or.inr (Or.inr (Or.inl hknown)))

theorem WellNamed.rest {op : SegOp} {env : HostEnv} (h : op.WellNamed env) (c : Nat) : (op.rest c).WellNamed env :=
  ⟨h.nodup, h.unknown, h.names, h.hostNames⟩

end Segmented

namespace Solo
variable {E : Solo} {H : Surroundings} {op : SegOp} {pattern : List PatElem} {Ts : List Total} {n m i : Nat} {σ : Scope}
  {th : Thread} {Q : Claim} {ws : List Write} {setting : Setting} {accs : List Accumulator} {points : List Nat}
  {s s' : Session} {fold : List Stmt}

/-- The variables of accumulators were taken before number `m`, and the host knows none of them. -/
theorem accumulators_known {k : Nat}
    (registers : Registers k m (Accumulator.names accs).length (Accumulator.names accs)) (hop : op.WellNamed H.env)
    (hcaptured : E.ctx.captured = H.env.bindings H.host) :
    ∀ x ∈ Accumulator.names accs, Generated x ∧ ¬New m x ∧ E.Free x := by
  intro x hx
  have generated := (registers.taken x hx).new.generated
  refine ⟨generated, registers.not_new (Nat.le_refl m) x hx, ?_⟩
  have : H.scope x = none := hop.scope_eq_none generated
  rw [Free, hcaptured]
  exact this

/-- The variables of a point in a space of one dimension. -/
theorem start_scalars (op : SegOp) {d : Ident × Operand} (hdims : op.space.dims = [d]) :
    (op.start H [n] i).scalars = (H.scope.set op.space.flat (.i64 (Int64.ofNat i))).set d.1 (.i64 (Int64.ofNat i)) := by
  unfold Segmented.start IterationSpace.pointScope IterationSpace.indices
  rw [hdims]
  simp [coords, indexValues, Scope.sets]

/-- Results that are plain operands have their values where more is known. -/
theorem values_of_plain {ρ : Env} {τ : Scope} {results : List BodyResult} {xs : List Exp} {vs : List Value}
    (hxs : List.Forall₂ (fun r x => ∃ value, r = BodyResult.returns value ∧ x = value.toExp) results xs)
    (hvs : results.mapM (·.value? ρ) = some vs) (hτ : ρ.scalars.Le τ) : Values τ xs vs := by
  rw [mapM_eq_some] at hvs
  induction hxs generalizing vs with
  | nil =>
    cases hvs
    exact .nil
  | cons hx _ ih =>
    obtain ⟨value, rfl, rfl⟩ := hx
    cases hvs with
    | cons hv hvs => exact .cons (eval_mono hτ (ok_of_toOption hv)) (ih hvs)

/-- A thread visits a point of the first stage: what is mapped is stored, and what the point contributes is folded in.
    -/
theorem ensures_reducedPoint {body mapped : Stmt} {point : Exp} {contributions : List Exp} {k : Nat}
    (R : op.Reduces H pattern Ts n E.ctx.loopLimit) (henv : setting.env = H.env)
    (C : (op.rest (Total.types Ts).length).Compiled setting (pattern.drop (Total.types Ts).length) m body mapped)
    (hfold : Accumulator.foldAll accs contributions setting s = .ok (fold, s')) (hm : m ≤ s.names)
    (hcontributions : List.Forall₂ (fun r x => ∃ value, r = BodyResult.returns value ∧ x = value.toExp)
      (op.results.take (Total.types Ts).length) contributions)
    (hserves : List.Forall₂ Accumulator.Serves accs Ts)
    (registers : Registers k m (Accumulator.names accs).length (Accumulator.names accs))
    (hcaptured : E.ctx.captured = H.env.bindings H.host) (hσ : op.Around H m σ)
    (hunknown : ∀ x ∈ Accumulator.names accs, σ x = none)
    (hview : E.Sees H σ fun array => array ∉ pattern.map (·.name) ∧ ¬Generated array)
    (hpermits : E.Permits H.env (op.mapped H pattern Ts n i)) (hpast : ∀ w ∈ ws, ∃ f, w ∈ op.mapped H pattern Ts n f)
    (hpoint : IsInt σ point i) (hi : i < n) (hth : σ.Le (E.scope th))
    (hsees : (E.scope th).Sees (Accumulator.names accs) (Total.allOver Ts points))
    (h : ∀ th', σ.Le (E.scope th') → (E.scope th').Sees (Accumulator.names accs) (Total.allOver Ts (points ++ [i])) →
      Q th' (ws ++ op.mapped H pattern Ts n i)) :
    E.Ensures (.block ([.declareInit op.space.flat .i64 point] ++
      op.space.indices.map (fun x => Stmt.declareInit x .i64 (.var op.space.flat)) ++ [body, mapped] ++ fold))
        Q th ws := by
  have known := accumulators_known registers R.wellNamed hcaptured
  obtain ⟨d, hdims⟩ : ∃ d, op.space.dims = [d] := by
    have := R.extents.length_eq
    exact List.length_eq_one_iff.mp (by simpa [IterationSpace.dimExps] using this)
  have hindices : op.space.indices = [d.1] := by simp [IterationSpace.indices, hdims]
  have hapart : ∀ x ∈ op.names, x ∉ Accumulator.names accs := fun x hx hmem => R.wellNamed.names x hx (known x hmem).1
  have hflatName : op.space.flat ∈ op.names := List.mem_append_left _ List.mem_cons_self
  have hindexName : d.1 ∈ op.names :=
    List.mem_append_left _ (List.mem_cons_of_mem _ (by rw [hindices]; exact List.mem_singleton_self _))
  have hne : op.space.flat ≠ d.1 :=
    fun e => (List.nodup_cons.mp R.wellNamed.nodup).1 (by rw [hindices, e]; exact List.mem_singleton_self _)
  -- The accumulators are part of what the thread knows while it runs the body.
  let σ₀ := σ.withAll (Accumulator.names accs) (Total.allOver Ts points)
  have hσ₀ : σ.Le σ₀ := Scope.le_withAll registers.nodup hunknown
  have hσ₀' : ∀ x ∈ op.names, σ₀ x = none := fun x hx => by
    rw [show σ₀ x = σ x from Scope.withAll_of_not_mem (hapart x hx), hσ.new R.wellNamed x hx]
  have hbefore : σ₀.Before m := registers.before_withAll hσ.before (Nat.le_refl m)
  let v : Value := .i64 (Int64.ofNat i)
  have hflat : σ₀ op.space.flat = none := hσ₀' _ hflatName
  have hindex : (σ₀.set op.space.flat v) d.1 = none := by rw [Scope.set_of_ne hne, hσ₀' _ hindexName]
  have hle : σ₀.Le ((σ₀.set op.space.flat v).set d.1 v) := (Scope.le_set hflat).trans (Scope.le_set hindex)
  rw [ensures_block, hindices, List.append_assoc, List.append_assoc, List.singleton_append, ensuresAll_cons,
    List.map_singleton,
    List.singleton_append, ensuresAll_cons]
  refine ensures_declareInit_of_known (Scope.withAll_le hth hsees) hflat (hpoint.mono hσ₀).eval_nat rfl
    fun th₁ hth₁ _ => ?_
  refine ensures_declareInit_of_known hth₁ hindex (eval_var Scope.set_self) rfl fun th₂ hth₂ _ => ?_
  obtain ⟨ρ, hρ, hvalues⟩ := R.contributes i hi
  have hi' : i < [n].prod := by simpa using hi
  obtain ⟨stores, hstores⟩ := Option.isSome_iff_exists.mp (R.deposits.stored i hi')
  have hvisit : op.mapped H pattern Ts n i = stores := by
    rw [Segmented.mapped, Segmented.visit, if_pos hi', hstores, Option.getD_some]
  rw [hvisit] at hpermits h
  have hknows : E.Knows (σ₀.set d.1 v) ((op.rest (Total.types Ts).length).start H [n] i) th₂ := by
    refine ⟨(Scope.le_set hflat).set.trans hth₂, ?_, fun _ _ _ hx => absurd hx.symm (Option.some_ne_none _)⟩
    rw [start_scalars (op.rest (Total.types Ts).length) hdims]
    exact ((hσ.host.trans hσ₀).set.set).trans hth₂
  have hbefore₂ : Scope.Before m (σ₀.set d.1 v) :=
    hbefore.set_of_not_new fun hx => R.wellNamed.names _ hindexName hx.generated
  rw [ensuresAll_append]
  refine ensures_results (R.wellNamed.rest _) R.plain (fun stm hstm x hx hmem => R.literals stm hstm x hx
      (((List.drop_sublist _ _).map _).subset hmem)) (R.deposits.lodged i hi' ρ hρ) henv C
    ⟨hview.host.trans (hσ₀.trans (Scope.le_set (hσ₀' _ hindexName))), hview.memory, hview.keeps, hview.fits⟩
      (fun w hw hreads => ?_)
    hbefore₂ (fun stm hstm x hx => ?_) ?_ hi' hρ hstores hpermits hknows fun th₃ hth₃ => ?_
  · obtain ⟨f, hf⟩ := hpast w hw
    exact hreads.1 (Segmented.mapped_slot hf).2
  · have hother : d.1 ≠ x := fun e => R.indices stm hstm x hx (by rw [hindices, e]; exact List.mem_singleton_self _)
    rw [Scope.set_of_ne hother, hσ₀' x (List.mem_append_right _ (List.mem_flatMap.mpr ⟨stm, hstm, hx⟩))]
  · have hvar : IsInt (σ₀.set d.1 v) (.var d.1) i := .var_nat Scope.set_self hpoint.fits
    have hcoords : coords [n] i = [i] := by simp [coords]
    have hexps : (op.rest (Total.types Ts).length).space.indexExps = [.var d.1] := congrArg (List.map _) hdims
    rw [hcoords, hexps]
    exact .cons hvar .nil
  -- The accumulators are assigned, so they are left out of what is known of the point.
  let known' : Scope := (E.scope th₃).without fun x => New s.names x ∨ x ∈ Accumulator.names accs
  have hbase : σ.Le known' := Scope.le_without (hσ₀.trans ((Scope.le_set (hσ₀' _ hindexName)).trans hth₃.base))
    fun x hx => hx.elim (fun hx => hσ.before x (hx.mono hm)) (hunknown x)
  have hρ' : ρ.scalars.Le known' := Scope.le_without hth₃.scalars fun x hx =>
    R.wellNamed.scalars_eq_none hρ (hx.elim New.generated fun hx => (known x hx).1)
  have hvalues' : Values known' contributions (Total.contributions Ts i) := values_of_plain hcontributions hvalues hρ'
  refine ensures_foldAll hserves hfold (β := known') (fun x hx => Scope.without_of (Or.inl hx)) Scope.without_le
    (fun T hT => (R.lawful T hT).mono (hσ.host.trans hbase)) hvalues' registers.nodup
    (fun x hx => ⟨Scope.without_of (Or.inr hx), fun hnew => (known x hx).2.1 (hnew.mono hm), (known x hx).2.2⟩) ?_
    fun th₄ hth₄ hsees₄ => h th₄ (hbase.trans hth₄) hsees₄
  exact (Scope.sees_withAll registers.nodup hsees.length_eq).mono
    ((Scope.le_set (hσ₀' _ hindexName)).trans hth₃.base)

/-! ### The second stage -/

/-- New variables get the components of a tuple in arrays. -/
theorem ensures_loads {point : Exp} {i : Nat} {rest : List Stmt} :
    ∀ {views : List View} {names : List Ident} {vs : List Value}
    {σ : Scope} {th : Thread}, σ.Le (E.scope th) → IsInt σ point i → (E.store.puts ws).HoldsAll views i vs →
    (∀ p, tupleSlots views i p → E.Keeps p) → names.Nodup → (∀ x ∈ names, σ x = none) → names.length = views.length →
    (∀ th', σ.Le (E.scope th') → (E.scope th').Sees names vs → E.EnsuresAll rest Q th' ws) →
    E.EnsuresAll ((views.zip names).flatMap (fun p => [Stmt.declare p.2 p.1.type false, .read p.2 p.1 point]) ++
      rest) Q th ws
  | [], [], _, σ, th, hσ, _, .nil, _, _, _, _, h => h th hσ .nil
  | view :: views, x :: names, v :: vs, σ, th, hσ, hi, .cons hv hvs, hkeeps, hnodup, hnew, hlength, h => by
    obtain ⟨hx, hnodup⟩ := List.nodup_cons.mp hnodup
    have hunknown := hnew x List.mem_cons_self
    have hle : σ.Le (σ.set x v) := Scope.le_set hunknown
    rw [List.zip_cons_cons, List.flatMap_cons, List.append_assoc]
    refine ensures_load hσ hunknown hi hv rfl (hkeeps _ ⟨view, List.mem_cons_self, rfl⟩) fun th₁ hσ₁ _ => ?_
    refine ensures_loads hσ₁ (hi.mono hle) hvs
      (fun p ⟨view', hview', hp⟩ => hkeeps p ⟨view', List.mem_cons_of_mem _ hview', hp⟩)
      hnodup (fun y hy => ?_) (Nat.succ.inj hlength) fun th₂ hσ₂ hsees =>
        h th₂ (hle.trans hσ₂) (.cons (hσ₂ x v Scope.set_self) hsees)
    have hne : x ≠ y := fun e => hx (e ▸ hy)
    exact (Scope.set_of_ne hne).trans (hnew y (List.mem_cons_of_mem x hy))

/-- A thread visits a point of the second stage: what a group has combined is folded in. -/
theorem ensures_partial {point : Exp} {partials : List View} {names : List Ident} {k l : Nat}
    (hfold : Accumulator.foldAll accs (names.map .var) setting s = .ok (fold, s')) (hm : m ≤ s.names)
    (hserves : List.Forall₂ Accumulator.Serves accs Ts) (hlawful : ∀ T ∈ Ts, T.Lawful σ)
    (registers : Registers k l (Accumulator.names accs).length (Accumulator.names accs)) (hl : l ≤ m)
    (hfree : ∀ x ∈ Accumulator.names accs, E.Free x) (loaded : Registers m s.names names.length names) (hσ : σ.Before m)
    (hunknown : ∀ x ∈ Accumulator.names accs, σ x = none) (hlength : names.length = partials.length)
    (hpoint : IsInt σ point i) (hholds : (E.store.puts ws).HoldsAll partials i (Total.contributions Ts i))
    (hkeeps : ∀ p, tupleSlots partials i p → E.Keeps p) (hth : σ.Le (E.scope th))
    (hsees : (E.scope th).Sees (Accumulator.names accs) (Total.allOver Ts points))
    (h : ∀ th', σ.Le (E.scope th') → (E.scope th').Sees (Accumulator.names accs) (Total.allOver Ts (points ++ [i])) →
      Q th' ws) :
    E.Ensures (.block ((partials.zip names).flatMap (fun p => [Stmt.declare p.2 p.1.type false, .read p.2 p.1 point]) ++
      fold))
      Q th ws := by
  have hσ₀ : σ.Le (σ.withAll (Accumulator.names accs) (Total.allOver Ts points)) :=
    Scope.le_withAll registers.nodup hunknown
  have hapart : ∀ x ∈ Accumulator.names accs, x ∉ names := registers.disjoint loaded hl
  have hold : ∀ x ∈ Accumulator.names accs, ¬New s.names x := registers.not_new (hl.trans hm)
  rw [ensures_block]
  refine ensures_loads (Scope.withAll_le hth hsees) (hpoint.mono hσ₀) hholds hkeeps loaded.nodup
    (fun x hx => ?_) hlength
    fun th₁ hth₁ hsees₁ => ?_
  · rw [Scope.withAll_of_not_mem fun hmem => hapart x hmem hx, loaded.unknown hσ x hx]
  let known := (E.scope th₁).without fun x => New s.names x ∨ x ∈ Accumulator.names accs
  have hbase : σ.Le known := Scope.le_without (hσ₀.trans hth₁)
    fun x hx => hx.elim (fun hx => hσ x (hx.mono hm)) (hunknown x)
  have hvalues : known.Sees names (Total.contributions Ts i) := hsees₁.imp fun x hx v hv =>
    (Scope.without_of_not fun h => h.elim (loaded.not_new (Nat.le_refl _) x hx) fun hmem => hapart x hmem hx).trans hv
  refine ensures_foldAll hserves hfold (β := known) (fun x hx => Scope.without_of (Or.inl hx)) Scope.without_le
    (fun T hT => (hlawful T hT).mono hbase) hvalues.values registers.nodup
    (fun x hx => ⟨Scope.without_of (Or.inr hx), hold x hx, hfree x hx⟩) ?_ fun th₂ hth₂ hsees₂ =>
      h th₂ (hbase.trans hth₂) hsees₂
  exact (Scope.sees_withAll registers.nodup hsees.length_eq).mono hth₁

end Solo
end SegKernel
