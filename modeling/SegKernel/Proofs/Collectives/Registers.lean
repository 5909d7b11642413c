import SegKernel.Collective.Scan
import SegKernel.Proofs.Collectives.Combining
import SegKernel.Proofs.Evaluation.Known
import SegKernel.Proofs.Evaluation.Words

/-! Tuples that a thread holds in variables. The variables of a tuple are assigned one after another. No
    other variable changes then, unless its name is new. -/

namespace SegKernel

/-! ### Variables with values -/

namespace Scope
variable {σ τ β : Scope} {names others : List Ident} {vs ws : List Value} {n : Nat}

/-- The variables have these values. -/
def Sees (σ : Scope) (names : List Ident) (vs : List Value) : Prop := List.Forall₂ (fun x v => σ x = some v) names vs

theorem Sees.values (h : σ.Sees names vs) : Exp.Values σ (names.map .var) vs :=
  List.forall₂_map_left_iff.mpr (h.imp fun _ _ => Exp.eval_var)

theorem Sees.imp (h : σ.Sees names vs) (hτ : ∀ x ∈ names, ∀ v, σ x = some v → τ x = some v) : τ.Sees names vs := by
  unfold Sees at *
  induction h with
  | nil => exact .nil
  | @cons x v names vs hv _ ih =>
    exact .cons (hτ x List.mem_cons_self v hv) (ih fun y hy => hτ y (List.mem_cons_of_mem x hy))

/-- Variables have got values. No others have changed, except for names from number `n` on. -/
structure Assigned (n : Nat) (names : List Ident) (vs : List Value) (σ τ : Scope) : Prop where
  sees : τ.Sees names vs
  others : ∀ x v, x ∉ names → ¬New n x → σ x = some v → τ x = some v

namespace Assigned

theorem le (h : Assigned n names vs σ τ) (hβ : β.Le σ) (hbefore : β.Before n) (hnames : ∀ x ∈ names, β x = none) :
    β.Le τ := by
  intro x v hx
  refine h.others x v (fun hmem => ?_) (fun hnew => ?_) (hβ x v hx)
  · rw [hnames x hmem] at hx
    cases hx
  · rw [hbefore x hnew] at hx
    cases hx

theorem keeps (h : Assigned n names vs σ τ) (hs : σ.Sees others ws) (hdisjoint : ∀ x ∈ others, x ∉ names)
    (hold : ∀ x ∈ others, ¬New n x) : τ.Sees others ws :=
  hs.imp fun x hx v hv => h.others x v (hdisjoint x hx) (hold x hx) hv

/-- The next variable is assigned as well. -/
theorem cons {name : Ident} {v : Value} {υ : Scope} (hfirst : (σ.set name v).Le υ) (h : Assigned n names vs υ τ)
    (hname : name ∉ names) (hold : ¬New n name) : Assigned n (name :: names) (v :: vs) σ τ where
  sees := .cons (h.others name v hname hold (hfirst _ _ Scope.set_self)) h.sees
  others x w hx hnew hw := by
    rw [List.mem_cons, not_or] at hx
    exact h.others x w hx.2 hnew (hfirst x w ((Scope.set_of_ne (Ne.symm hx.1)).trans hw))

end Assigned

theorem set_le {name : Ident} {v : Value} (h : σ.Le τ) (hv : τ name = some v) : (σ.set name v).Le τ := by
  intro x w hx
  by_cases hne : name = x
  · subst hne
    rw [set_self] at hx
    exact Option.some.inj hx ▸ hv
  · rw [set_of_ne hne] at hx
    exact h x w hx

/-- What is known, and the values of some variables. -/
def withAll (σ : Scope) : List Ident → List Value → Scope
  | x :: names, v :: vs => (σ.withAll names vs).set x v
  | _, _ => σ

theorem withAll_of_not_mem {x : Ident} :
    ∀ {names : List Ident} {vs : List Value}, x ∉ names → σ.withAll names vs x = σ x
  | [], _, _ | _ :: _, [], _ => rfl
  | y :: names, v :: vs, h => by
    rw [List.mem_cons, not_or] at h
    rw [withAll, set_of_ne (Ne.symm h.1), withAll_of_not_mem h.2]

theorem le_withAll :
    ∀ {names : List Ident} {vs : List Value}, names.Nodup → (∀ x ∈ names, σ x = none) → σ.Le (σ.withAll names vs)
  | [], _, _, _ | _ :: _, [], _, _ => .refl σ
  | y :: names, v :: vs, hnodup, h => by
    obtain ⟨hy, hnodup⟩ := List.nodup_cons.mp hnodup
    refine (le_withAll hnodup fun x hx => h x (List.mem_cons_of_mem y hx)).trans (le_set ?_)
    rw [withAll_of_not_mem hy]
    exact h y List.mem_cons_self

theorem sees_withAll : ∀ {names : List Ident} {vs : List Value}, names.Nodup → names.length = vs.length →
    (σ.withAll names vs).Sees names vs
  | [], [], _, _ => .nil
  | y :: names, v :: vs, hnodup, h => by
    obtain ⟨hy, hnodup⟩ := List.nodup_cons.mp hnodup
    refine .cons set_self ((sees_withAll hnodup (Nat.succ.inj h)).imp fun x hx w hw => ?_)
    have hne : y ≠ x := fun e => hy (e ▸ hx)
    rwa [withAll, set_of_ne hne]

theorem withAll_le : ∀ {names : List Ident} {vs : List Value}, σ.Le τ → τ.Sees names vs → (σ.withAll names vs).Le τ
  | [], _, h, _ | _ :: _, [], h, _ => h
  | _ :: _, _ :: _, h, .cons hv hvs => set_le (withAll_le h hvs) hv

/-- Two tuples in variables, beside what is known. -/
structure Holds (σ : Scope) (xs ys : List Ident) (x y : List Value) (τ : Scope) : Prop where
  known : σ.Le τ
  left : τ.Sees xs x
  right : τ.Sees ys y

theorem Sees.mono (h : σ.Sees names vs) (hle : σ.Le τ) : τ.Sees names vs := h.imp fun x _ v => hle x v

theorem Holds.forget {xs ys : List Ident} {x y : List Value} (h : τ.Holds xs ys x y β) (hle : σ.Le τ) :
    σ.Holds xs ys x y β :=
  ⟨hle.trans h.known, h.left, h.right⟩

/-- Another variable gets a value. -/
theorem Holds.set {xs ys : List Ident} {x y : List Value} {υ : Scope} {name : Ident} {v : Value}
    (h : σ.Holds xs ys x y τ) (hυ : (τ.set name v).Le υ) (hx : name ∉ xs) (hy : name ∉ ys) :
    (σ.set name v).Holds xs ys x y υ where
  known := h.known.set.trans hυ
  left := h.left.imp fun z hz w hw => hυ z w ((set_of_ne fun e : name = z => hx (e ▸ hz)).trans hw)
  right := h.right.imp fun z hz w hw => hυ z w ((set_of_ne fun e : name = z => hy (e ▸ hz)).trans hw)

/-- Variables for two tuples, of which nothing is known, at a time when `m` names were taken. -/
structure Operands (σ : Scope) (m : Nat) (xs ys : List Ident) : Prop where
  before : σ.Before m
  leftUnknown : ∀ x ∈ xs, σ x = none
  rightUnknown : ∀ x ∈ ys, σ x = none
  leftOld : ∀ x ∈ xs, ¬New m x
  rightOld : ∀ x ∈ ys, ¬New m x
  leftNodup : xs.Nodup
  rightNodup : ys.Nodup
  apart : ∀ x ∈ xs, x ∉ ys

namespace Operands
variable {m m' : Nat} {xs ys : List Ident} {x y x' y' : List Value}

theorem apart' (h : σ.Operands m xs ys) : ∀ x ∈ ys, x ∉ xs := fun x hy hx => h.apart x hx hy

theorem later (h : σ.Operands m xs ys) (hm : m ≤ m') : σ.Operands m' xs ys where
  before := h.before.mono hm
  leftUnknown := h.leftUnknown
  rightUnknown := h.rightUnknown
  leftOld x hx hnew := h.leftOld x hx (hnew.mono hm)
  rightOld x hx hnew := h.rightOld x hx (hnew.mono hm)
  leftNodup := h.leftNodup
  rightNodup := h.rightNodup
  apart := h.apart

theorem setLeft (h : σ.Operands m xs ys) (hτ : σ.Holds xs ys x y τ) {υ : Scope} (ha : Assigned m xs x' τ υ) :
    σ.Holds xs ys x' y υ where
  known := ha.le hτ.known h.before h.leftUnknown
  left := ha.sees
  right := ha.keeps hτ.right h.apart' h.rightOld

theorem setRight (h : σ.Operands m xs ys) (hτ : σ.Holds xs ys x y τ) {υ : Scope} (ha : Assigned m ys y' τ υ) :
    σ.Holds xs ys x y' υ where
  known := ha.le hτ.known h.before h.rightUnknown
  left := ha.keeps hτ.left h.apart h.leftOld
  right := ha.sees

/-- More may be known of other variables. -/
theorem set (h : σ.Operands m xs ys) {name : Ident} (hx : name ∉ xs) (hy : name ∉ ys) (hold : ¬New m name) (v : Value) :
    (σ.set name v).Operands m xs ys where
  before := h.before.set_of_not_new hold
  leftUnknown z hz := (set_of_ne fun e : name = z => hx (e ▸ hz)).trans (h.leftUnknown z hz)
  rightUnknown z hz := (set_of_ne fun e : name = z => hy (e ▸ hz)).trans (h.rightUnknown z hz)
  leftOld := h.leftOld
  rightOld := h.rightOld
  leftNodup := h.leftNodup
  rightNodup := h.rightNodup
  apart := h.apart

/-- What is known, the two tuples included. -/
theorem exists_scope (h : σ.Operands m xs ys) (hτ : σ.Holds xs ys x y τ) :
    ∃ σ' : Scope, σ.Holds xs ys x y σ' ∧ σ'.Le τ ∧ σ'.Before m := by
  have right : ∀ z ∈ ys, (σ.withAll xs x) z = none := fun z hz => by
    rw [withAll_of_not_mem (h.apart' z hz), h.rightUnknown z hz]
  have hxs : σ.Le (σ.withAll xs x) := le_withAll h.leftNodup h.leftUnknown
  have hys : (σ.withAll xs x).Le ((σ.withAll xs x).withAll ys y) := le_withAll h.rightNodup right
  refine ⟨(σ.withAll xs x).withAll ys y, ⟨hxs.trans hys, ?_, ?_⟩, withAll_le (withAll_le hτ.known hτ.left) hτ.right,
    fun z hz => ?_⟩
  · exact (sees_withAll h.leftNodup (List.Forall₂.length_eq hτ.left)).mono hys
  · exact sees_withAll h.rightNodup (List.Forall₂.length_eq hτ.right)
  · rw [withAll_of_not_mem fun e => h.rightOld z e hz, withAll_of_not_mem fun e => h.leftOld z e hz]
    exact h.before z hz

end Operands
end Scope

/-! ### Registers -/

/-- Different names for some components, taken when between `n` and `m` names were taken. -/
structure Registers (n m count : Nat) (names : List Ident) : Prop where
  taken : ∀ x ∈ names, Taken n m x
  nodup : names.Nodup
  length : names.length = count

namespace Registers
variable {n m n' m' k count count' : Nat} {names others : List Ident} {σ : Scope}

theorem later (h : Registers n m count names) (hm : m ≤ m') : Registers n m' count names :=
  ⟨fun x hx => (h.taken x hx).mono (Nat.le_refl n) hm, h.nodup, h.length⟩

theorem earlier (h : Registers n m count names) (hn : n' ≤ n) : Registers n' m count names :=
  ⟨fun x hx => (h.taken x hx).mono hn (Nat.le_refl m), h.nodup, h.length⟩

theorem not_new (h : Registers n m count names) (hm : m ≤ k) : ∀ x ∈ names, ¬New k x := by
  rintro x hx ⟨stem, -, j, hj, rfl⟩
  exact (h.taken _ hx).ne_numbered (Nat.le_trans hm hj) rfl

theorem ne_numbered (h : Registers n m count names) (hm : m ≤ k) {stem : String} : numbered stem k ∉ names := fun hx =>
  (h.taken _ hx).ne_numbered hm rfl

/-- Names that are taken later are others. -/
theorem disjoint (h : Registers n m count names) (h' : Registers n' m' count' others) (hm : m ≤ n') :
    ∀ x ∈ names, x ∉ others :=
  fun x hx hx' => h.not_new hm x hx (h'.taken x hx').new

/-- The values of registers may be known later. -/
theorem before_withAll (h : Registers n m count names) (hσ : σ.Before k) (hm : m ≤ k) {vs : List Value} :
    (σ.withAll names vs).Before k := fun x hx => by
  rw [Scope.withAll_of_not_mem fun hmem => h.not_new hm x hmem hx]
  exact hσ x hx

theorem unknown (h : Registers n m count names) (hσ : σ.Before n) : ∀ x ∈ names, σ x = none := fun x hx =>
  hσ x (h.taken x hx).new

end Registers

theorem Fresh.At.registers {stem : String} (hstem : stem ∈ uniformStems ++ ownStems ++ arrayStems ++ kernelStems) :
    ∀ {n : Nat} {α : Type} (as : List α), Fresh.At n (SegKernel.freshFor stem as) fun m names =>
      Registers n m as.length names
  | n, _, [] => .pure ⟨by simp, .nil, rfl⟩
  | n, _, _ :: as => by
    refine .take ?_
    refine (registers hstem as).bind fun m names hm h =>
      .pure ⟨fun x hx => ?_, ?_, by rw [List.length_cons, h.length]; rfl⟩
    · rcases List.mem_cons.mp hx with rfl | hx
      · exact ⟨stem, hstem, n, Nat.le_refl n, hm, rfl⟩
      · exact (h.taken x hx).mono (Nat.le_succ n) (Nat.le_refl m)
    · refine List.nodup_cons.mpr ⟨fun hx => ?_, h.nodup⟩
      exact (h.taken _ hx).new.ne_numbered (Nat.lt_succ_self n) rfl

/-! ### Assignments of a thread -/

/-! ### Views that must not be cached -/

theorem tupleSlots_withVolatile (volatile : Bool) (views : List View) (i : Nat) (p : Slot) :
    tupleSlots (views.map (·.withVolatile volatile)) i p ↔ tupleSlots views i p := by
  constructor
  · rintro ⟨view, hview, rfl⟩
    obtain ⟨view', hview', rfl⟩ := List.mem_map.mp hview
    exact ⟨view', hview', rfl⟩
  · rintro ⟨view, hview, rfl⟩
    exact ⟨_, List.mem_map_of_mem hview, rfl⟩

theorem Store.HoldsAll.withVolatile {m : Store} {views : List View} {i : Nat} {vs : List Value}
    (h : m.HoldsAll views i vs) (volatile : Bool) : m.HoldsAll (views.map (·.withVolatile volatile)) i vs :=
  List.forall₂_map_left_iff.mpr (h.imp fun _ _ hv => hv.withVolatile volatile)

namespace Solo
open Exp
variable {E : Solo} {Q : Claim} {th : Thread} {ws : List Write} {names dests sources : List Ident}
  {vs olds : List Value} {n : Nat} {σ : Scope} {rest : List Stmt}

/-- New variables of some types. -/
theorem ensures_declareAll {types : List ScalarType} (hnodup : names.Nodup) (hold : ∀ x ∈ names, ¬New n x)
    (hlength : names.length = types.length)
    (h : ∀ th', Scope.Assigned n names (types.map .zero) (E.scope th) (E.scope th') → th'.arrays = th.arrays →
      Q th' ws) :
    E.Ensures (declareAll names types) Q th ws := by
  rw [declareAll, ensures_block]
  induction names generalizing types th with
  | nil =>
    obtain rfl := List.length_eq_zero_iff.mp hlength.symm
    rw [show List.map _ _ = [] from rfl, ensuresAll_nil]
    exact h th ⟨.nil, fun _ _ _ _ h => h⟩ rfl
  | cons name names ih =>
    cases types with
    | nil => cases hlength
    | cons type types =>
      obtain ⟨hname, hnodup⟩ := List.nodup_cons.mp hnodup
      rw [List.zip_cons_cons, List.map_cons, ensuresAll_cons]
      refine ensures_declare (ih hnodup (fun x hx => hold x (List.mem_cons_of_mem name hx)) (Nat.succ.inj hlength)
        fun th' hth' ha => h th' ?_ ha)
      exact .cons (Thread.set_le_scope_bind (.refl _)) hth' hname (hold name List.mem_cons_self)

/-- Variables get the values of others. -/
theorem ensuresAll_sets (hnodup : dests.Nodup) (hold : ∀ x ∈ dests, ¬New n x) (hfree : ∀ x ∈ dests, E.Free x)
    (hdisjoint : ∀ x ∈ sources, x ∉ dests) (holds : (E.scope th).Sees dests olds) (hvs : (E.scope th).Sees sources vs)
    (htypes : olds.map Value.type = vs.map Value.type)
    (h : ∀ th', Scope.Assigned n dests vs (E.scope th) (E.scope th') → th'.arrays = th.arrays →
      E.EnsuresAll rest Q th' ws) :
    E.EnsuresAll (((dests.zip sources).map fun p => .set p.1 (.var p.2)) ++ rest) Q th ws := by
  -- On the destinations: what is still to be copied is unchanged, since no source is a destination.
  induction dests generalizing sources vs olds th with
  | nil =>
    cases holds
    rw [List.map_nil, eq_comm, List.map_eq_nil_iff] at htypes
    subst htypes
    exact h th ⟨.nil, fun _ _ _ _ h => h⟩ rfl
  | cons dest dests ih =>
    obtain ⟨old, olds, hdest, hrest, rfl⟩ := List.forall₂_cons_left_iff.mp holds
    cases hvs with
    | nil => cases htypes
    | @cons source v sources vs hv hvs =>
      obtain ⟨hname, hnodup⟩ := List.nodup_cons.mp hnodup
      rw [List.map_cons, List.map_cons, List.cons.injEq] at htypes
      rw [List.zip_cons_cons, List.map_cons, List.cons_append, ensuresAll_cons]
      refine ensures_set_of_known (.refl _) (hfree dest List.mem_cons_self) hdest (eval_var hv) htypes.1
        fun th₁ hth₁ ha₁ => ?_
      have others : ∀ x v, x ≠ dest → E.scope th x = some v → E.scope th₁ x = some v := fun x v hx hv =>
        hth₁ x v ((Scope.set_of_ne (Ne.symm hx)).trans hv)
      refine ih hnodup (fun x hx => hold x (List.mem_cons_of_mem dest hx))
        (fun x hx => hfree x (List.mem_cons_of_mem dest hx))
        (fun x hx hmem => hdisjoint x (List.mem_cons_of_mem source hx) (List.mem_cons_of_mem dest hmem))
        (Scope.Sees.imp hrest fun x hx v => others x v fun e => hname (e ▸ hx))
        (Scope.Sees.imp hvs fun x hx v => others x v fun e =>
          hdisjoint x (List.mem_cons_of_mem source hx) (e ▸ List.mem_cons_self))
        htypes.2 fun th' hth' ha => h th' ?_ (ha.trans ha₁)
      exact .cons hth₁ hth' hname (hold dest List.mem_cons_self)

theorem ensures_setAll (hnodup : dests.Nodup) (hold : ∀ x ∈ dests, ¬New n x) (hfree : ∀ x ∈ dests, E.Free x)
    (hdisjoint : ∀ x ∈ sources, x ∉ dests) (holds : (E.scope th).Sees dests olds) (hvs : (E.scope th).Sees sources vs)
    (htypes : olds.map Value.type = vs.map Value.type)
    (h : ∀ th', Scope.Assigned n dests vs (E.scope th) (E.scope th') → th'.arrays = th.arrays → Q th' ws) :
    E.Ensures (setAll dests sources) Q th ws := by
  rw [setAll, ensures_block, ← List.append_nil (List.map _ _)]
  refine ensuresAll_sets hnodup hold hfree hdisjoint holds hvs htypes fun th' hth' ha => ?_
  rw [ensuresAll_nil]
  exact h th' hth' ha

/-- A variable gets the value of an element. -/
theorem ensures_read {view : View} {index : Exp} {i : Nat} {dest : Ident} {old v : Value} (hfree : E.Free dest)
    (hdest : E.scope th dest = some old) (hi : IsInt (E.scope th) index i) (hv : (E.store.puts ws).Holds view i v)
    (hkeeps : E.Keeps (view.slot i)) (htype : old.type = v.type)
    (h : ∀ th', ((E.scope th).set dest v).Le (E.scope th') → th'.arrays = th.arrays → Q th' ws) :
    E.Ensures (.read dest view index) Q th ws := by
  obtain ⟨a, ha, hi⟩ := hi.evalInt
  rw [Ensures]
  refine ⟨a, v, ha, ?_, ⟨old, Thread.own_of_known (.refl _) hfree hdest, htype⟩,
    h _ (Thread.set_le_scope_bind (.refl _)) rfl⟩
  have hspace := hv.reaches.space_ne
  unfold Loads
  split
  · exact absurd ‹_› hspace
  · exact ⟨by rwa [hi], hv.load hi⟩

/-- Variables get the components of a tuple. -/
theorem ensures_readAll {views : List View} {index : Exp} {i : Nat} (hσ : σ.Le (E.scope th))
    (hdests : ∀ x ∈ dests, σ x = none) (hi : IsInt σ index i) (hnodup : dests.Nodup) (hold : ∀ x ∈ dests, ¬New n x)
    (hfree : ∀ x ∈ dests, E.Free x) (holds : (E.scope th).Sees dests olds) (hvs : (E.store.puts ws).HoldsAll views i vs)
    (hkeeps : ∀ p, tupleSlots views i p → E.Keeps p) (htypes : olds.map Value.type = vs.map Value.type)
    (h : ∀ th', Scope.Assigned n dests vs (E.scope th) (E.scope th') → th'.arrays = th.arrays → Q th' ws) :
    E.Ensures (readAll views dests index) Q th ws := by
  rw [readAll, ensures_block]
  induction dests generalizing views vs olds th with
  | nil =>
    cases holds
    rw [List.zip_nil_right, List.map_nil, ensuresAll_nil]
    rw [List.map_nil, eq_comm, List.map_eq_nil_iff] at htypes
    subst htypes
    exact h th ⟨.nil, fun _ _ _ _ h => h⟩ rfl
  | cons dest dests ih =>
    obtain ⟨old, olds, hdest, hrest, rfl⟩ := List.forall₂_cons_left_iff.mp holds
    cases hvs with
    | nil => cases htypes
    | @cons view v views vs hv hvs =>
      obtain ⟨hname, hnodup⟩ := List.nodup_cons.mp hnodup
      rw [List.map_cons, List.map_cons, List.cons.injEq] at htypes
      rw [List.zip_cons_cons, List.map_cons, ensuresAll_cons]
      refine ensures_read (hfree dest List.mem_cons_self) hdest (hi.mono hσ) hv
        (hkeeps _ ⟨view, List.mem_cons_self, rfl⟩)
        htypes.1 fun th₁ hth₁ ha₁ => ?_
      have others : ∀ x v, x ≠ dest → E.scope th x = some v → E.scope th₁ x = some v := fun x v hx hv =>
        hth₁ x v ((Scope.set_of_ne (Ne.symm hx)).trans hv)
      -- The index is still there: it mentions no destination.
      have hσ₁ : σ.Le (E.scope th₁) := fun x v hx => others x v (fun e => by
        rw [e, hdests dest List.mem_cons_self] at hx
        cases hx) (hσ x v hx)
      refine ih hσ₁ (fun x hx => hdests x (List.mem_cons_of_mem dest hx)) hnodup
        (fun x hx => hold x (List.mem_cons_of_mem dest hx)) (fun x hx => hfree x (List.mem_cons_of_mem dest hx))
        (Scope.Sees.imp hrest fun x hx v => others x v fun e => hname (e ▸ hx)) hvs
        (fun p ⟨w, hw, e⟩ => hkeeps p ⟨w, List.mem_cons_of_mem _ hw, e⟩) htypes.2 fun th' hth' ha =>
          h th' ?_ (ha.trans ha₁)
      exact .cons hth₁ hth' hname (hold dest List.mem_cons_self)

/-- New variables get values. -/
theorem ensuresAll_declareInits {temps : List Ident} {xs : List Exp} (hσ : σ.Le (E.scope th)) (hx : Values σ xs vs)
    (hlength : temps.length = vs.length) (hnodup : temps.Nodup) (hnew : ∀ x ∈ temps, σ x = none)
    (h : ∀ th', σ.Le (E.scope th') → (E.scope th').Sees temps vs → th'.arrays = th.arrays →
      E.EnsuresAll rest Q th' ws) :
    E.EnsuresAll (((temps.zip xs).zip (vs.map Value.type)).map (fun p => Stmt.declareInit p.1.1 p.2 p.1.2) ++ rest)
      Q th ws := by
  induction xs generalizing temps vs σ th with
  | nil =>
    cases hx
    obtain rfl := List.length_eq_zero_iff.mp hlength
    exact h th hσ .nil rfl
  | cons x xs ih =>
    obtain ⟨v, vs, hv, hvs, rfl⟩ := List.forall₂_cons_left_iff.mp hx
    cases temps with
    | nil => cases hlength
    | cons temp temps =>
      obtain ⟨hname, hnodup⟩ := List.nodup_cons.mp hnodup
      have hle : σ.Le (σ.set temp v) := Scope.le_set (hnew temp List.mem_cons_self)
      rw [List.zip_cons_cons, List.map_cons, List.zip_cons_cons, List.map_cons, List.cons_append, ensuresAll_cons]
      refine ensures_declareInit_of_known hσ (hnew temp List.mem_cons_self) hv rfl fun th₁ hth₁ ha₁ => ?_
      refine ih hth₁ (Values.mono hvs hle) (Nat.succ.inj hlength) hnodup (fun y hy => ?_) fun th' hth' hsees ha =>
        h th' (hle.trans hth') (.cons (hth' _ _ Scope.set_self) hsees) (ha.trans ha₁)
      have hne : temp ≠ y := fun e => hname (e ▸ hy)
      rw [Scope.set_of_ne hne]
      exact hnew y (List.mem_cons_of_mem temp hy)

/-- Variables get the results of an operator. They may be among its operands. -/
theorem ensures_assign (l : Lambda) (xs ys : List Exp) (dests : List Ident) :
    Fresh.At n (l.assign xs ys dests) fun _ code =>
    ∀ (E : Solo) (σ : Scope) (th : Thread) (Q : Claim) (ws : List Write) (vx vy vz olds : List Value), σ.Before n →
      σ.Le (E.scope th) → Values σ xs vx → Values σ ys vy → l.Combines σ vx vy vz → vz.map Value.type = l.resultTypes →
      dests.Nodup → (∀ x ∈ dests, ¬New n x) → (∀ x ∈ dests, E.Free x) → (E.scope th).Sees dests olds →
      olds.map Value.type = l.resultTypes →
      (∀ th', Scope.Assigned n dests vz (E.scope th) (E.scope th') → th'.arrays = th.arrays → Q th' ws) →
        E.Ensures code Q th ws := by
  unfold Lambda.assign
  extract_lets results
  split
  · rename_i hone
    refine .pure fun E σ th Q ws vx vy vz olds hσ hth hx hy hz htypes hnodup hold hfree holds holdTypes h => ?_
    have hvz : Values σ results vz := Lambda.values_apply hx hy hz
    obtain ⟨r, hr⟩ := List.length_eq_one_iff.mp hone
    rw [hr] at hvz ⊢
    obtain ⟨v, hv, rfl⟩ : ∃ v, r.eval σ = .ok v ∧ vz = [v] := by
      cases hvz with
      | cons hv hrest =>
        cases hrest
        exact ⟨_, hv, rfl⟩
    obtain ⟨old, rfl⟩ : ∃ old, olds = [old] := by
      have := congrArg List.length (holdTypes.trans htypes.symm)
      exact List.length_eq_one_iff.mp (by simpa using this)
    obtain ⟨dest, rfl⟩ : ∃ dest, dests = [dest] := List.length_eq_one_iff.mp (List.Forall₂.length_eq holds)
    obtain ⟨hdest, -⟩ := List.forall₂_cons.mp holds
    have htype : old.type = v.type := by
      have := holdTypes.trans htypes.symm
      simpa using this
    rw [ensures_block, show List.map _ _ = [Stmt.set dest r] from rfl, ensuresAll_singleton]
    refine ensures_set_of_known (.refl _) (hfree dest List.mem_cons_self) hdest (eval_mono hth hv) htype
      fun th' hth' ha => ?_
    exact h th' (.cons hth' ⟨.nil, fun _ _ _ _ h => h⟩ List.not_mem_nil (hold dest List.mem_cons_self)) ha
  · refine (Fresh.At.registers (show "res" ∈ _ by decide) results).bind fun m temps hm htemps => .pure ?_
    intro E σ th Q ws vx vy vz olds hσ hth hx hy hz htypes hnodup hold hfree holds holdTypes h
    have hvz : Values σ results vz := Lambda.values_apply hx hy hz
    -- The results are computed before any of the variables changes.
    let old : Scope := fun x => open Classical in if New n x then none else E.scope th x
    have hold' : old.Le (E.scope th) := fun x v hx => by
      dsimp only [old] at hx
      split at hx
      · cases hx
      · exact hx
    have hσold : σ.Le old := fun x v hx => by
      dsimp only [old]
      rw [if_neg fun hnew => by rw [hσ x hnew] at hx; cases hx]
      exact hth x v hx
    rw [ensures_block, ← htypes]
    refine ensuresAll_declareInits hold' (hvz.mono hσold) (htemps.length.trans (List.Forall₂.length_eq hvz))
      htemps.nodup
      (fun x hx => if_pos (htemps.taken x hx).new) fun th₁ hth₁ hsees ha₁ => ?_
    rw [← List.append_nil (List.map _ (dests.zip temps))]
    have kept : ∀ x v, ¬New n x → E.scope th x = some v → E.scope th₁ x = some v := fun x v hx hv =>
      hth₁ x v ((if_neg hx).trans hv)
    refine ensuresAll_sets hnodup hold hfree (fun x hx hmem => hold x hmem (htemps.taken x hx).new)
      (holds.imp fun x hx v => kept x v (hold x hx)) hsees (holdTypes.trans htypes.symm) fun th' hth' ha => ?_
    rw [ensuresAll_nil]
    exact h th' ⟨hth'.sees, fun x v hx hnew hv => hth'.others x v hx hnew (kept x v hnew hv)⟩ (ha.trans ha₁)

/-- Code that sets the first one of two tuples to what an operator makes of both. -/
def Applies (l : Lambda) (m : Nat) (xs ys : List Ident) (code : Stmt) : Prop :=
  ∀ (E : Solo) (σ : Scope) (th : Thread) (Q : Claim) (ws : List Write) (x y z : List Value), σ.Operands m xs ys →
    (∀ x ∈ xs, E.Free x) → σ.Holds xs ys x y (E.scope th) → l.Combines σ x y z → x.map Value.type = l.resultTypes →
    z.map Value.type = l.resultTypes → (∀ th', σ.Holds xs ys z y (E.scope th') → th'.arrays = th.arrays → Q th' ws) →
      E.Ensures code Q th ws

theorem assign_applies (l : Lambda) (xs ys : List Ident) :
    Fresh.At n (l.assign (xs.map .var) (ys.map .var) xs) fun _ code => Applies l n xs ys code := by
  refine (ensures_assign l (xs.map .var) (ys.map .var) xs).imp fun _ code _ hcode => ?_
  intro E σ th Q ws x y z hσ hfree hth hz hxTypes hzTypes h
  obtain ⟨σ', hσ', hle, hbefore⟩ := hσ.exists_scope hth
  exact hcode E σ' th Q ws x y z x hbefore hle hσ'.left.values hσ'.right.values (hz.mono hσ'.known) hzTypes hσ.leftNodup
    hσ.leftOld hfree hth.left hxTypes
    fun th' hth' ha => h th' (hσ.setLeft hth hth') ha

/-- The first tuple takes in the second one in front, or becomes the second one where a segment starts. Which
    of both comes true is known when the operator is applied, at a time when more names may be taken. -/
theorem ensures_takeIn {l : Lambda} {m m' : Nat} {τ : Scope} {xs ys : List Ident} {apply : Stmt} {part : Exp}
    {inactive : Ident} {p crosses : Bool} {x y z : List Value} (happly : Applies l m xs ys apply)
    (hσ : σ.Operands m xs ys) (hτ : τ.Operands m' xs ys) (hle : σ.Le τ) (hfree : ∀ x ∈ xs, E.Free x)
    (hth : τ.Holds xs ys x y (E.scope th)) (hpart : IsBool σ part p)
    (hinactive : τ inactive = some (.bool (p && crosses))) (hz : l.Combines σ x y z)
    (hx : x.map Value.type = l.resultTypes) (hy : y.map Value.type = l.resultTypes)
    (hz' : z.map Value.type = l.resultTypes)
    (h : ∀ th', σ.Holds xs ys (if p then if crosses then y else z else x) y (E.scope th') → th'.arrays = th.arrays →
      Q th' ws) :
    E.EnsuresAll [.when (.var inactive) (setAll xs ys), .when (part.both (Exp.var inactive).negation) apply]
      Q th ws := by
  rw [ensuresAll_cons, ensuresAll_singleton]
  have hseen : IsBool τ (.var inactive) (p && crosses) := eval_var hinactive
  have hrest : IsBool τ (part.both (Exp.var inactive).negation) (p && !(p && crosses)) :=
    (hpart.mono hle).both fun _ => hseen.negation
  refine ensures_when (hseen.mono hth.known) (fun hkeep => ?_) fun hkeep => ?_
  · obtain ⟨rfl, rfl⟩ := (Bool.and_eq_true_iff).mp hkeep
    refine ensures_setAll hτ.leftNodup hτ.leftOld hfree hτ.apart' hth.left hth.right (hx.trans hy.symm)
      fun th₁ hth₁ ha₁ => ?_
    have hth₁ := hτ.setLeft hth hth₁
    exact ensures_when (hrest.mono hth₁.known) nofun fun _ => h th₁ (hth₁.forget hle) ha₁
  · refine ensures_when (hrest.mono hth.known) (fun htakes => ?_) fun hskips => ?_
    · obtain ⟨rfl, hcrosses⟩ := (Bool.and_eq_true_iff).mp htakes
      rw [Bool.true_and, Bool.not_eq_true'] at hcrosses
      subst hcrosses
      exact happly E σ th Q ws x y z hσ hfree (hth.forget hle) hz hx hz' h
    · have hnot : p = false := by
        cases p with
        | false => rfl
        | true =>
          rw [Bool.true_and] at hkeep
          rw [hkeep] at hskips
          cases hskips
      subst hnot
      exact h th (hth.forget hle) rfl

/-- A tuple is stored. -/
theorem ensures_writeAll {views : List View} {index : Exp} {i : Nat} (hσ : σ.Le (E.scope th)) (hi : IsInt σ index i)
    (hvs : (E.scope th).Sees sources vs) (htypes : vs.map Value.type = views.map (·.type))
    (hreaches : ∀ view ∈ views, E.store.Reaches view i) (hown : ∀ p, tupleSlots views i p → E.own E.id p)
    (h : Q th (ws ++ tupleWrites views i vs)) : E.Ensures (writeAll views sources index) Q th ws := by
  rw [writeAll, ensures_block, ← List.append_nil (List.map _ _)]
  have code : ((views.zip sources).map fun p => Stmt.write p.1 index (.var p.2)) =
      (views.zip (sources.map .var)).map fun p => .write p.1 index p.2 := by
    rw [List.zip_map_right, List.map_map]
    rfl
  rw [show (views.zip sources).map _ = _ from code]
  refine ensures_writes (σ := E.scope th) (.refl _) (hi.mono hσ) hvs.values htypes hreaches hown ?_
  rwa [ensuresAll_nil]

end Solo
end SegKernel
