import SegKernel.Proofs.Execution.Rebuilding
import SegKernel.Proofs.Maps.Meaning
import SegKernel.Proofs.Collectives.Areas
import SegKernel.Proofs.Collectives.Registers
import SegKernel.Proofs.Updates.Components
import SegKernel.Proofs.Updates.Locks
import Mathlib.Tactic.Choose

/-! Concurrent updates linearize: whatever the lambda and the device, the destinations hold in the end what
    they would hold if the threads had taken their values in one after another. -/

namespace SegKernel
open Run

theorem Fresh.liftM_mapM {α β : Type} (f : α → Fresh β) : ∀ as : List α,
    (as.mapM fun a => (liftM (f a) : ExceptT LowerError Fresh β)) = liftM (as.mapM f)
  | [] => by
    rw [List.mapM_nil, List.mapM_nil, liftM_pure]
  | a :: as => by
    rw [List.mapM_cons, List.mapM_cons, liftM_mapM f as, liftM_bind]
    simp only [liftM_bind, liftM_pure]

/-- The result of a computation that does not fail, after `n` names were taken. -/
def Fresh.AtExcept {α : Type} (n : Nat) (f : ExceptT LowerError Fresh α) (P : α → Prop) : Prop :=
  At n f.run fun _ r => ∃ a, r = .ok a ∧ P a

namespace Fresh.AtExcept
variable {α β : Type} {n : Nat} {P : α → Prop} {Q : β → Prop}

theorem pure {a : α} (h : P a) : AtExcept n (Pure.pure a) P := At.pure ⟨a, rfl, h⟩

theorem imp {f : ExceptT LowerError Fresh α} {P' : α → Prop} (h : AtExcept n f P) (hP : ∀ a, P a → P' a) :
    AtExcept n f P' := by
  refine At.imp h ?_
  rintro _ _ - ⟨a, ha, hPa⟩
  exact ⟨a, ha, hP a hPa⟩

theorem lift {f : Fresh α} (h : At n f fun _ => P) :
    AtExcept n (liftM f) P := h.bind fun _ a _ ha => At.pure ⟨a, rfl, ha⟩

theorem map {f : ExceptT LowerError Fresh α} {g : α → β} (h : AtExcept n f P) (hg : ∀ a, P a → Q (g a)) :
    AtExcept n (do return g (← f)) Q := by
  unfold AtExcept
  rw [ExceptT.run_bind]
  refine h.bind ?_
  rintro m _ - ⟨a, rfl, ha⟩
  exact At.pure ⟨g a, rfl, hg a ha⟩

theorem mapM {f : α → Fresh β} {g : α → ExceptT LowerError Fresh β} {as : List α} {Q : List β → Prop}
    (hg : ∀ a, g a = liftM (f a)) (h : At n (as.mapM f) fun _ => Q) : AtExcept n (as.mapM g) Q := by
  obtain rfl : g = fun a => liftM (f a) := funext hg
  rw [liftM_mapM]
  exact lift h

/-- A name is taken, and the rest goes on from the next number. -/
theorem take {stem : String} {g : Ident → ExceptT LowerError Fresh β} (h : AtExcept (n + 1) (g (numbered stem n)) Q) :
    AtExcept n (liftM (fresh stem) >>= g) Q := by
  unfold AtExcept
  rw [ExceptT.run_bind]
  exact At.take h

end Fresh.AtExcept

/-! ### The lambda -/

namespace Lambda
variable {l : Lambda} {σ : Scope}

theorem Tuple.length (h : l.isWellFormed = true) (x : l.Tuple) : x.1.length = l.arity := by
  rw [← List.length_map (f := Value.type), x.2, length_resultTypes h]

/-- The value of a parameter among others of different names. -/
theorem find?_of_distinct {ps : List (Param × Value)} (hnd : (ps.map (·.1.name)).Nodup) {p : Param × Value}
    (hp : p ∈ ps) :
    ps.reverse.find? (·.1.name == p.1.name) = some p := by
  rw [← List.mem_reverse] at hp
  rw [← List.nodup_reverse, ← List.map_reverse] at hnd
  generalize ps.reverse = qs at hp hnd
  obtain ⟨before, after, rfl⟩ := List.append_of_mem hp
  rw [List.find?_eq_some_iff_append]
  refine ⟨beq_self_eq_true _, before, after, rfl, fun q hq => ?_⟩
  rw [List.map_append, List.map_cons] at hnd
  have hne := (List.nodup_append.mp hnd).2.2 q.1.name (List.mem_map_of_mem hq) p.1.name List.mem_cons_self
  simpa using hne

/-- A component of a tuple. -/
def Tuple.component (h : l.isWellFormed = true) (x : l.Tuple) (i : Fin l.arity) : Value :=
  getElem x.1 i.1 (by rw [x.length h]; exact i.2)

/-- Each value is a component of some tuple. -/
theorem Tuple.exists_component (h : l.isWellFormed = true) (x : l.Tuple) (i : Fin l.arity) {v : Value}
    (hv : v.type = (x.component h i).type) : ∃ y : l.Tuple, y.component h i = v := by
  refine ⟨⟨x.1.set i v, ?_⟩, by simp [component]⟩
  rw [List.map_set, hv, component, ← List.getElem_map Value.type (h := by rw [List.length_map, x.length h]; exact i.2),
    List.set_getElem_self, x.2]

/-- Parameters of different names have the values of their components. -/
theorem argument_eq (h : l.isWellFormed = true) (hnd : (l.params.map (·.name)).Nodup) (x y : l.Tuple)
    (i : Fin l.arity) :
    l.argument x.1 y.1 (getElem l.left i.1 (by rw [length_left h]; exact i.2)).name = some (x.component h i) ∧
      l.argument x.1 y.1 (getElem l.right i.1 (by rw [length_right h]; exact i.2)).name = some (y.component h i) := by
  have hfst : (l.left.zip x.1 ++ l.right.zip y.1).map (·.1) = l.params := by
    rw [List.map_append, List.map_fst_zip (by rw [length_left h, x.length h]),
      List.map_fst_zip (by rw [length_right h, y.length h]), left, right, List.take_append_drop]
  have hdistinct : ((l.left.zip x.1 ++ l.right.zip y.1).map (·.1.name)).Nodup := by
    rwa [← hfst, List.map_map] at hnd
  have hleft : (getElem l.left i.1 (by rw [length_left h]; exact i.2), x.component h i) ∈ l.left.zip x.1 :=
    List.mem_iff_getElem.mpr ⟨i, by simp [length_left h, x.length h], List.getElem_zip⟩
  have hright : (getElem l.right i.1 (by rw [length_right h]; exact i.2), y.component h i) ∈ l.right.zip y.1 :=
    List.mem_iff_getElem.mpr ⟨i, by simp [length_right h, y.length h], List.getElem_zip⟩
  constructor
  · exact congrArg (Option.map (·.2)) (find?_of_distinct hdistinct (List.mem_append_left _ hleft))
  · exact congrArg (Option.map (·.2)) (find?_of_distinct hdistinct (List.mem_append_right _ hright))

/-- The components of a lambda are binary operators on the parameters. -/
theorem components_eq {cs : List (BinaryOp × ScalarType)} (h : l.components? = some cs) :
    l.isWellFormed = true ∧ cs.length = l.arity ∧
    ∀ i (hi : i < l.results.length) (hl : i < l.left.length) (hr : i < l.right.length)
      (hc : i < cs.length), l.results[i] = .binary cs[i].1 (.var l.left[i].name) (.var l.right[i].name) ∧
        cs[i].2 = l.left[i].type := by
  unfold components? at h
  split at h
  · rename_i hwell
    have hforall := mapM_eq_some.mp h
    have hlength := hforall.length_eq
    rw [List.length_zip, List.length_zip, length_left hwell, length_right hwell] at hlength
    refine ⟨hwell, by rw [← hlength]; simp [arity], fun i hi hl hr hc => ?_⟩
    have hcomponent := (List.forall₂_iff_get.mp hforall).2 i (by simp [arity] at *; omega) hc
    simp only [List.get_eq_getElem, List.getElem_zip, component?] at hcomponent
    split at hcomponent
    · rename_i op a b hresult
      split at hcomponent
      · rename_i hvars
        have hop := Option.some.inj hcomponent
        rw [hresult, hvars.1, hvars.2, ← hop]
        exact ⟨rfl, rfl⟩
      · cases hcomponent
    · cases hcomponent
  · cases h

theorem length_components {cs : List (BinaryOp × ScalarType)} (h : l.components? = some cs) : cs.length = l.arity :=
  (components_eq h).2.1

/-- A component of a combination is what its operator makes of the components of the operands. -/
theorem binary_of_components {cs : List (BinaryOp × ScalarType)} (h : l.components? = some cs)
    (hwell : l.isWellFormed = true) (hnd : (l.params.map (·.name)).Nodup) {op : l.Tuple → l.Tuple → l.Tuple}
    (hop : l.Computes σ op) (x y : l.Tuple) (i : Fin l.arity) (hbool : (x.component hwell i).type ≠ .bool) :
    Value.binary (getElem cs i.1 (by rw [length_components h]; exact i.2)).1 (x.component hwell i)
      (y.component hwell i) =
      .ok ((op x y).component hwell i) := by
  obtain ⟨-, -, hresults⟩ := components_eq h
  obtain ⟨hresult, -⟩ := hresults i i.2 (by rw [length_left hwell]; exact i.2) (by rw [length_right hwell]; exact i.2)
    (by rw [length_components h]; exact i.2)
  obtain ⟨hleft, hright⟩ := argument_eq hwell hnd x y i
  have hvalue : (getElem l.results i.1 i.2).eval (l.scope σ x.1 y.1) = .ok ((op x y).component hwell i) :=
    (List.forall₂_iff_get.mp (hop x y)).2 i i.2 (by rw [Tuple.length hwell]; exact i.2)
  have hvar : ∀ {name : Ident} {v : Value}, l.argument x.1 y.1 name = some v →
      (Exp.var name).eval (l.scope σ x.1 y.1) = .ok v := fun hv => Exp.eval_var (by rw [scope, hv]; rfl)
  have hnotbool : ∀ b, ¬Exp.IsBool (l.scope σ x.1 y.1)
    (.var (getElem l.left i.1 (by rw [length_left hwell]; exact i.2)).name) b :=
    fun b hb => by
      rw [Exp.IsBool, hvar hleft, Except.ok.injEq] at hb
      exact hbool (congrArg Value.type hb)
  rw [hresult] at hvalue
  by_cases hand : (getElem cs i.1 (by rw [length_components h]; exact i.2)).1 = .logAnd
  · rw [hand] at hvalue
    obtain ⟨a, -, ha, -⟩ := Exp.eval_logAnd_eq_ok.mp hvalue
    exact absurd ha (hnotbool a)
  by_cases hor : (getElem cs i.1 (by rw [length_components h]; exact i.2)).1 = .logOr
  · rw [hor] at hvalue
    obtain ⟨a, -, ha, -⟩ := Exp.eval_logOr_eq_ok.mp hvalue
    exact absurd ha (hnotbool a)
  rwa [Exp.eval_binary hand hor (hvar hleft) (hvar hright)] at hvalue

theorem of_wholeUpdate_eq_swap (h : l.wholeUpdate = .swap) : ∃ type, l.resultTypes = [type] ∧ type.bitWidth = 32 := by
  unfold wholeUpdate at h
  split at h
  · split at h
    · exact ⟨_, ‹_›, And.left ‹_›⟩
    · cases h
  · cases h

end Lambda

/-! ### What an update does -/

theorem Store.Holds.of_withVolatile {m : Store} {view : View} {volatile : Bool} {i : Nat} {v : Value}
    (h : m.Holds (view.withVolatile volatile) i v) : m.Holds view i v := ⟨h.reaches, h.bits⟩

/-- In the memory `m` the elements hold what they would hold if the threads had replaced their tuples one after
    another, for each component in some order. All other slots but the loose ones are what they were. -/
structure Linearizes {l : Lambda} (dests : List View) (all : List Nat) (b : Nat → Nat) (f : Nat → l.Tuple → l.Tuple)
    (found : Nat → l.Tuple) (loose : Slot → Prop) (order : Nat → List Nat) (m₀ m : Store) : Prop where
  permutes : ∀ i, (order i).Perm all
  holds : ∀ i view, dests[i]? = some view → ∀ t ∈ all, ∃ v,
    ((order i).foldl (advance b f) found (b t)).1[i]? = some v ∧ m.Holds view (b t) v
  others : ∀ p, (∀ t ∈ all, ¬tupleSlots dests (b t) p) → ¬loose p → m.bits? p = m₀.bits? p
  layout : ∀ space array, m.layout? space array = m₀.layout? space array

/-- Locks that nobody holds, apart from the elements. The threads know how many there are. -/
structure Locking.Free (k : Locking) (dests : List View) (all : List Nat) (B : Nat → Scope) (count : Nat) (m : Store) :
    Prop where
  type : k.locks.type = .i32
  separate : ∀ view ∈ dests, ¬view.SameArray k.locks
  positive : 0 < count
  counted : ∀ t ∈ all, Exp.IsInt (B t) k.numLocks count
  free : ∀ j < count, m.Holds k.locks j (.i32 unlocked)

/-- The threads of an update with the values that they take in and the tuples that they find. The lambda
    combines all tuples. -/
structure Updaters (l : Lambda) (dests : List View) (index : Exp) (values : List Exp) (ctx : GroupContext)
    (all : List Nat) (B : Nat → Scope) (n : Nat) (b : Nat → Nat) (op : Nat → l.Tuple → l.Tuple → l.Tuple)
    (taken found : Nat → l.Tuple) (m₀ : Store) : Prop where
  contenders : Contenders ctx all index B b n
  wellFormed : l.isWellFormed = true
  distinct : (l.params.map (·.name)).Nodup
  types : dests.map (·.type) = l.resultTypes
  apart : ViewsApart dests
  arity : values.length = l.arity
  values : ∀ t ∈ all, Exp.Values (B t) values (taken t).1
  total : ∀ t ∈ all, l.Computes (B t) (op t)
  holds : ∀ t ∈ all, m₀.HoldsAll dests (b t) (found (b t)).1

namespace Updaters
variable {l : Lambda} {dests : List View} {index : Exp} {values : List Exp} {ctx : GroupContext} {all : List Nat}
  {B : Nat → Scope} {n k : Nat} {b : Nat → Nat} {op : Nat → l.Tuple → l.Tuple → l.Tuple} {taken found : Nat → l.Tuple}
  {m₀ : Store} {own : Nat → Memory}

section
variable (h : Updaters l dests index values ctx all B n b op taken found m₀)
include h

theorem length_dests : dests.length = l.arity := by
  rw [← List.length_map (f := (·.type)), h.types, Lambda.length_resultTypes h.wellFormed]

theorem type_dest {i : Nat} (hi : i < dests.length) (x : l.Tuple) (hx : i < x.1.length) :
    x.1[i].type = dests[i].type := by
  have e : getElem (x.1.map Value.type) i (by simpa) = getElem (dests.map (·.type)) i (by simpa) := by
    simp only [x.2, h.types]
  rwa [List.getElem_map, List.getElem_map] at e

/-! ### Components -/

variable {cs : List (BinaryOp × ScalarType)}

theorem type_component (hcs : l.components? = some cs) {i : Nat} (hi : i < cs.length) (hd : i < dests.length) :
    dests[i].type = cs[i].2 := by
  obtain ⟨hwell, hlength, hresults⟩ := Lambda.components_eq hcs
  have hl : i < l.left.length := by rw [Lambda.length_left hwell, ← hlength]; exact hi
  have e : getElem (dests.map (·.type)) i (by simpa) = getElem (l.left.map (·.type)) i (by simpa) := by
    simp only [h.types, Lambda.resultTypes]
  rw [List.getElem_map, List.getElem_map] at e
  exact e.trans (hresults i (Nat.lt_of_lt_of_eq hi hlength) hl (by rw [Lambda.length_right hwell, ← hlength]; exact hi)
    hi).2.symm

/-- The part of a component. -/
def part (hcs : cs.length = l.arity) (table : AtomicsTable) (i : Fin l.arity) : Part where
  update := .select table (getElem cs i.1 (by rw [hcs]; exact i.2))
  dest := getElem dests i.1 (by rw [h.length_dests]; exact i.2)
  value := getElem values i.1 (by rw [h.arity]; exact i.2)
  op := (getElem cs i.1 (by rw [hcs]; exact i.2)).1
  next t v := (Value.binary (getElem cs i.1 (by rw [hcs]; exact i.2)).1 v
    ((taken t).component h.wellFormed i)).toOption.getD v
  first β := (found β).component h.wellFormed i

theorem zip_parts (hcs : cs.length = l.arity) (table : AtomicsTable) :
    ((cs.map (ComponentUpdate.select table)).zip dests).zip values =
      (List.ofFn (h.part hcs table)).map fun p => ((p.update, p.dest), p.value) := by
  refine List.ext_getElem ?_ fun i _ _ => ?_
  · simp [hcs, h.length_dests, h.arity]
  · simp [part]

theorem dests_parts (hcs : cs.length = l.arity) (table : AtomicsTable) :
    (List.ofFn (h.part hcs table)).map (·.dest) = dests := by
  refine List.ext_getElem ?_ fun i _ _ => ?_
  · simp [h.length_dests]
  · simp [part]

section
variable (hcs : l.components? = some cs) (hwidth : ∀ c ∈ cs, c.2.bitWidth = 32) (table : AtomicsTable) (i : Fin l.arity)
include hcs hwidth

theorem width_part : (h.part (Lambda.length_components hcs) table i).dest.type.bitWidth = 32 := by
  have hi : i.1 < cs.length := by rw [Lambda.length_components hcs]; exact i.2
  rw [part, h.type_component hcs hi]
  exact hwidth _ (List.getElem_mem hi)

theorem part_binary {t : Nat} (ht : t ∈ all) (x : l.Tuple) :
    Value.binary (h.part (Lambda.length_components hcs) table i).op (x.component h.wellFormed i)
      ((taken t).component h.wellFormed i) = .ok ((op t x (taken t)).component h.wellFormed i) := by
  refine Lambda.binary_of_components hcs h.wellFormed h.distinct (h.total t ht) x (taken t) i fun hbool => ?_
  have htype := h.type_dest (by rw [h.length_dests]; exact i.2) x (by rw [x.length h.wellFormed]; exact i.2)
  have hw := h.width_part hcs hwidth table i
  rw [part, ← htype] at hw
  exact absurd (hw.symm.trans (congrArg ScalarType.bitWidth hbool)) (by decide)

theorem part_next {t : Nat} (ht : t ∈ all) (x : l.Tuple) :
    (h.part (Lambda.length_components hcs) table i).next t (x.component h.wellFormed i) =
      (op t x (taken t)).component h.wellFormed i :=
  congrArg (fun r => r.toOption.getD (x.component h.wellFormed i)) (h.part_binary hcs hwidth table i ht x)

theorem part_fits : (h.part (Lambda.length_components hcs) table i).Fits all B where
  applies := ComponentUpdate.applies_select table _
  width := h.width_part hcs hwidth table i
  operand t ht := by
    have htype (x : l.Tuple) : (x.component h.wellFormed i).type =
      (h.part (Lambda.length_components hcs) table i).dest.type :=
      h.type_dest (by rw [h.length_dests]; exact i.2) x (by rw [x.length h.wellFormed]; exact i.2)
    refine ⟨(taken t).component h.wellFormed i, (List.forall₂_iff_get.mp (h.values t ht)).2 i _ _, fun v hv => ?_⟩
    obtain ⟨x, rfl⟩ := Lambda.Tuple.exists_component h.wellFormed (taken t) i (hv.trans (htype (taken t)).symm)
    rw [h.part_next hcs hwidth table i ht x]
    exact ⟨h.part_binary hcs hwidth table i ht x, htype _⟩

end

/-- Each component has been taken in by some order of the threads. -/
theorem exists_linearizes (hcs : l.components? = some cs) (hwidth : ∀ c ∈ cs, c.2.bitWidth = 32) (table : AtomicsTable)
    {m : Store} (hm : Part.Taken (List.ofFn (h.part (Lambda.length_components hcs) table)) all b m₀ m) :
    ∃ order, Linearizes dests all b (fun t x => op t x (taken t)) found (fun _ => False) order m₀ m := by
  let part (i : Fin l.arity) : Part := h.part (Lambda.length_components hcs) table i
  have horders (i : Fin l.arity) : ∃ order : List Nat, order.Perm all ∧ ∀ t ∈ all, m.Holds (part i).dest (b t)
      ((order.foldl (advance b fun t x => op t x (taken t)) found (b t)).component h.wellFormed i) := by
    obtain ⟨order, hperm, hholds⟩ := hm.holds _ (List.mem_ofFn.mpr ⟨i, rfl⟩)
    have hrelated := foldl_advance_related (i := b) (f := (part i).next) (g := fun t x => op t x (taken t))
      (x := (part i).first) (y := found) (R := fun v x => v = x.component h.wellFormed i)
      (fun t ht v x hv => by rw [hv, h.part_next hcs hwidth table i ht x]) (fun t ht => hperm.mem_iff.mp ht)
        fun t ht => rfl
    exact ⟨order, hperm, fun t ht => hrelated t ht ▸ hholds t ht⟩
  choose order hperm hholds using horders
  refine ⟨fun i => if hi : i < l.arity then order ⟨i, hi⟩ else all, fun i => ?_, fun i view hview t ht => ?_,
    fun p hp _ => ?_,
    hm.layout⟩
  · split
    · exact hperm _
    · exact .refl all
  · obtain ⟨hi, rfl⟩ := List.getElem?_eq_some_iff.mp hview
    rw [h.length_dests] at hi
    rw [dif_pos hi]
    exact ⟨_, List.getElem?_eq_getElem _, hholds ⟨i, hi⟩ t ht⟩
  · refine hm.frame p fun q hq t ht e => hp t ht ⟨q.dest, ?_, e⟩
    rw [← h.dests_parts (Lambda.length_components hcs) table]
    exact List.mem_map_of_mem hq

variable (own) in
/-- Each component is updated on its own. -/
theorem components_linearize (hcs : l.components? = some cs) (hwidth : ∀ c ∈ cs, c.2.bitWidth = 32)
    (table : AtomicsTable) :
    Fresh.At n ((((cs.map (ComponentUpdate.select table)).zip dests).zip values).mapM fun ((u, dest), value) =>
      u.code dest index value) fun _ stmts =>
        Brings all (Scene.of all (· = m₀) (Keeping ctx B own)) (execAll ctx stmts all) fun m th =>
          (∃ order, Linearizes dests all b (fun t x => op t x (taken t)) found (fun _ => False) order m₀ m) ∧
            ∀ t ∈ all, Keeping ctx B own t (th t) := by
  rw [h.zip_parts (Lambda.length_components hcs) table]
  refine (h.contenders.codes_advance own (Nat.le_refl n) (fun p hp => ?_) ?_).imp fun _ stmts _ hstmts =>
    (hstmts m₀ fun p hp t ht => ?_).imp (fun m th => id) fun m th hm =>
      ⟨h.exists_linearizes hcs hwidth table hm.1, hm.2⟩
  · obtain ⟨i, rfl⟩ := List.mem_ofFn.mp hp
    exact h.part_fits hcs hwidth table i
  · rw [h.dests_parts]
    exact h.apart
  · obtain ⟨i, rfl⟩ := List.mem_ofFn.mp hp
    exact (List.forall₂_iff_get.mp (h.holds t ht)).2 i _ _

/-! ### Whole tuples -/

/-- What a thread makes of a tuple, given as a list. -/
def combined (op : Nat → l.Tuple → l.Tuple → l.Tuple) (taken : Nat → l.Tuple) (t : Nat) (vs : List Value) :
    List Value :=
  if h : vs.map Value.type = l.resultTypes then (op t ⟨vs, h⟩ (taken t)).1 else vs

omit h in
theorem combined_val (t : Nat) (x : l.Tuple) : combined op taken t x.1 = (op t x (taken t)).1 := dif_pos x.2

theorem values_combined {t : Nat} (ht : t ∈ all) {τ : Scope} (hτ : (B t).Le τ) {xs : List Exp} (x : l.Tuple)
    (hxs : Exp.Values τ xs x.1) : Exp.Values τ (l.apply xs values) (combined op taken t x.1) := by
  rw [combined_val]
  exact Lambda.values_apply hxs ((h.values t ht).mono hτ) ((h.total t ht).mono hτ x (taken t))

variable (own) in
/-- A single component is replaced by what the whole lambda makes of it. -/
theorem swap_linearizes (hswap : l.wholeUpdate = .swap) (locking : Option Locking) :
    Fresh.AtExcept n (AtomicUpdate.swap.body l locking dests index values) fun stmt =>
      Brings all (Scene.of all (· = m₀) (Keeping ctx B own)) (exec ctx stmt all) fun m th =>
        (∃ order : List Nat, Linearizes dests all b (fun t x => op t x (taken t)) found (fun _ => False)
          (fun _ => order) m₀ m) ∧
          ∀ t ∈ all, Keeping ctx B own t (th t) := by
  obtain ⟨type, htypes, hwidth⟩ := Lambda.of_wholeUpdate_eq_swap hswap
  obtain ⟨dest, rfl, rfl⟩ := List.map_eq_singleton_iff.mp (h.types.trans htypes)
  obtain ⟨result, hresult⟩ : ∃ result, l.results = [result] := by
    rw [← List.length_eq_one_iff, ← Lambda.arity, ← h.length_dests, List.length_singleton]
  have hsingle (x : l.Tuple) : ∃ v, x.1 = [v] ∧ v.type = dest.type := List.map_eq_singleton_iff.mp (x.2.trans htypes)
  let g (t : Nat) (v : Value) : Value := (combined op taken t [v]).headD v
  have hg (t : Nat) (x : l.Tuple) {v : Value} (hx : x.1 = [v]) :
      (op t x (taken t)).1 = [g t v] ∧ (g t v).type = dest.type := by
    obtain ⟨w, hw, htype⟩ := hsingle (op t x (taken t))
    have : g t v = w := by
      simp only [g]
      rw [← hx, combined_val, hw, List.headD_cons]
    rw [this]
    exact ⟨hw, htype⟩
  have htuple {v : Value} (hv : v.type = dest.type) : ∃ x : l.Tuple, x.1 = [v] :=
    ⟨⟨[v], by rw [htypes, List.map_singleton, hv]⟩, rfl⟩
  -- From here on a bucket holds one value, and not a tuple of one.
  choose first hfirst _ using fun β => hsingle (found β)
  unfold AtomicUpdate.body
  refine .take ?_
  rw [hresult]
  refine .lift ((h.contenders.swapLoop_advances own (g := g) (Nat.le_refl n) hwidth
    (fun t ht τ v hτ hv hassumed => ?_) fun t ht v hv => ?_).imp fun _ stmt _ hstmt => (hstmt m₀ first).imp
      (fun m th hm => ?_) fun m th hm => ⟨?_, hm.elim fun _ hm => hm.2.2⟩)
  · obtain ⟨x, hx⟩ := htuple hv
    have hword : Exp.Values τ [dest.type.fromWord (.var (numbered "assumed" n))] x.1 := hx ▸ .cons hassumed .nil
    have hvalues := h.values_combined ht hτ x hword
    rw [combined_val, (hg t x hx).1, Lambda.apply, hresult] at hvalues
    exact (List.forall₂_cons.mp hvalues).1
  · obtain ⟨x, hx⟩ := htuple hv
    exact (hg t x hx).2
  · rw [hm.1]
    refine ⟨⟨fun _ _ => rfl, fun t ht => ?_, fun _ _ => rfl⟩, hm.2⟩
    have := h.holds t ht
    rw [hfirst] at this
    exact (List.forall₂_cons.mp this).1
  · obtain ⟨order, hperm, hm, -⟩ := hm
    have hrelated := foldl_advance_related (i := b) (f := g) (g := fun t x => op t x (taken t)) (x := first)
      (y := found)
      (R := fun v x => x.1 = [v]) (fun t ht v x hx => (hg t x hx).1)
      (fun t ht => hperm.mem_iff.mp ht) fun t ht => hfirst (b t)
    refine ⟨order, fun _ => hperm, fun i view hview t ht => ?_, fun p hp _ => hm.frame p fun t ht e => ?_, hm.layout⟩
    · obtain ⟨hi, hview⟩ := List.getElem?_eq_some_iff.mp hview
      obtain rfl : i = 0 := Nat.lt_one_iff.mp hi
      obtain rfl : dest = view := hview
      exact ⟨_, by rw [hrelated t ht]; rfl, hm.holds t ht⟩
    · exact hp t ht ⟨dest, List.mem_singleton_self dest, e⟩

/-! ### Tuples under locks -/

section
variable {accs : List Ident} {m' : Nat}

/-- The components with the variables into which they are read. -/
abbrev places (l : Lambda) (dests : List View) (accs : List Ident) : List ((View × Param) × Ident) :=
  ((dests.map (·.withVolatile true)).zip l.left).zip accs

/-- The variables are named after those of the loop. -/
abbrev Accumulators (l : Lambda) (dests : List View) (n m : Nat) (accs : List Ident) : Prop :=
  Registers (n + 1 + 1 + 1) m ((dests.map (·.withVolatile true)).zip l.left).length accs

theorem views_places (haccs : Accumulators l dests n m' accs) :
    Lockers.views (places l dests accs) = dests.map (·.withVolatile true) := by
  have hleft : (dests.map (·.withVolatile true)).length = l.left.length := by
    rw [List.length_map, h.length_dests, Lambda.length_left h.wellFormed]
  have hfst : (places l dests accs).map (·.1) = (dests.map (·.withVolatile true)).zip l.left :=
    List.map_fst_zip (Nat.le_of_eq haccs.length.symm)
  have := congrArg (List.map (·.1)) hfst
  rwa [List.map_map, List.map_fst_zip (Nat.le_of_eq hleft)] at this

omit h in
theorem accs_places (haccs : Accumulators l dests n m' accs) : Lockers.accs (places l dests accs) = accs :=
  List.map_snd_zip (Nat.le_of_eq haccs.length)

theorem params_places : ∀ p ∈ places l dests accs, p.1.2.type = p.1.1.type := by
  intro p hp
  have heq : List.Forall₂ (fun view param => view.type = param.type) (dests.map (·.withVolatile true)) l.left :=
    List.forall₂_map_left_iff.mpr (List.forall₂_map_right_iff.mp (List.forall₂_map_left_iff.mp
      (List.forall₂_eq_eq_eq ▸ h.types)))
  exact ((List.forall₂_iff_zip.mp heq).2 (List.of_mem_zip hp).1).symm

/-- The threads update their tuples under the locks of their buckets. -/
theorem lockers (haccs : Accumulators l dests n m' accs) {k : Locking} {count : Nat}
    (hk : k.Free dests all B count m₀) :
    Lockers ctx all (places l dests accs) (l.apply (accs.map .var) values) index (k.slot index)
      (k.locks.withVolatile true)
      (numbered "continue" n) (numbered "old" (n + 1)) (numbered "released" (n + 1 + 1)) B b (fun t => b t % count)
      (combined op taken) := by
  have hviews := h.views_places haccs
  have hnames := accs_places haccs
  have htypes : (Lockers.views (places l dests accs)).map (·.type) = l.resultTypes := by
    rw [hviews, List.map_map, ← h.types]
    rfl
  have hnew : ∀ name ∈ numbered "continue" n :: numbered "old" (n + 1) :: numbered "released" (n + 1 + 1) ::
      Lockers.accs (places l dests accs), New n name := by
    rw [hnames]
    simp only [List.forall_mem_cons]
    exact ⟨new_numbered (by decide) (Nat.le_refl n), new_numbered (by decide) (by omega),
      new_numbered (by decide) (by omega),
      fun name hname => (haccs.taken name hname).new.mono (by omega)⟩
  have hothers : ∀ {stem : String} {j : Nat}, j < n + 1 + 1 + 1 → numbered stem j ∉ accs := fun hj hmem =>
    (haccs.taken _ hmem).new.ne_numbered hj rfl
  -- The lambda of the update works on tuples; the locks only ask which threads share one.
  refine {
    off := h.contenders.off
    nodup := h.contenders.nodup
    apart := ?apart
    separate := ?separate
    lockType := hk.type
    params := h.params_places
    names := ?names
    unknown := fun t ht name hname => h.contenders.before t ht _ (hnew name hname)
    free := fun name hname => h.contenders.free _ (hnew name hname)
    index := h.contenders.index
    slot := fun t ht => (h.contenders.index t ht).mod (hk.counted t ht) (by omega) (by have := hk.positive; omega)
    shared := fun t t' e => by rw [e]
    results := fun t ht τ vs hτ hvs hvalues => ?results
    typed := fun t ht vs hvs => ?typed }
  case apart =>
    rw [hviews, ViewsApart, List.pairwise_map]
    exact h.apart
  case separate =>
    rw [hviews, List.forall_mem_map]
    exact hk.separate
  case names =>
    rw [hnames]
    simp only [List.nodup_cons, List.mem_cons, numbered_inj, not_or]
    exact ⟨⟨by simp, by simp, hothers (by omega)⟩, ⟨by simp, hothers (by omega)⟩, hothers (by omega), haccs.nodup⟩
  case results =>
    rw [htypes] at hvs
    rw [hnames] at hvalues
    exact h.values_combined ht hτ ⟨vs, hvs⟩ hvalues
  case typed =>
    rw [htypes] at hvs ⊢
    exact (congrArg (List.map Value.type) (combined_val t ⟨vs, hvs⟩)).trans (op t ⟨vs, hvs⟩ (taken t)).2

end

omit h in
/-- Tuples that have been updated under locks, which are free again. -/
theorem linearizes_of_guarded {k : Locking} {count : Nat} (hk : k.Free dests all B count m₀) {order : List Nat}
    (hperm : order.Perm all) {m : Store} (hm : Guarded (dests.map (·.withVolatile true)) (k.locks.withVolatile true) b
      (fun t => b t % count) all m₀ (order.foldl (advance b (combined op taken)) fun β => (found β).1)
      (fun _ => .i32 Locking.unlocked) m) :
    Linearizes dests all b (fun t x => op t x (taken t)) found (fun p => ∃ j < count, p = k.locks.slot j)
      (fun _ => order) m₀ m ∧
      ∀ j < count, m.Holds k.locks j (.i32 Locking.unlocked) := by
  have hrelated := foldl_advance_related (i := b) (f := combined op taken) (g := fun t x => op t x (taken t))
    (x := fun β => (found β).1) (y := found) (R := fun vs x => vs = x.1)
    (fun t _ vs x hvs => hvs ▸ combined_val t x) (fun t ht => hperm.mem_iff.mp ht) fun _ _ => rfl
  refine ⟨⟨fun _ => hperm, fun i view hview t ht => ?_, fun p hp hloose => ?_, hm.layout⟩, fun j hj => ?_⟩
  · obtain ⟨hi, rfl⟩ := List.getElem?_eq_some_iff.mp hview
    have hholds := List.forall₂_map_left_iff.mp (hm.holds t ht)
    rw [hrelated t ht] at hholds
    have hholds : m.Holds (dests[i].withVolatile true) (b t) _ := (List.forall₂_iff_get.mp hholds).2 i hi
      (hholds.length_eq ▸ hi)
    exact ⟨_, List.getElem?_eq_getElem _, hholds.of_withVolatile⟩
  · refine hm.frame p fun t ht => ⟨fun hslot => hp t ht ((tupleSlots_withVolatile true dests (b t) p).mp hslot),
      fun e => ?_⟩
    exact hloose ⟨_, Nat.mod_lt _ hk.positive, e⟩
  -- A lock that no thread has wanted is what it was.
  · by_cases htaken : ∃ t ∈ all, b t % count = j
    · obtain ⟨t, ht, rfl⟩ := htaken
      exact (hm.locked t ht).of_withVolatile
    · refine (hk.free j hj).of_bits (hm.layout _ _) (hm.frame _ fun t ht => ⟨?_, fun e => ?_⟩)
      · rw [tupleSlots_withVolatile]
        rintro ⟨view, hview, e⟩
        exact hk.separate view hview (View.slot_eq_iff.mp e.symm).1
      · exact htaken ⟨t, ht, (View.slot_eq_iff.mp e.symm).2⟩

variable (own) in
/-- Tuples are replaced by what the lambda makes of them while the locks of their buckets are held. -/
theorem locked_linearizes {k : Locking} {count : Nat} (hk : k.Free dests all B count m₀) :
    Fresh.At n (lockedUpdate k l dests index values) fun _ stmt =>
      Brings all (Scene.of all (· = m₀) (Keeping ctx B own)) (exec ctx stmt all) fun m th =>
        (∃ order : List Nat, Linearizes dests all b (fun t x => op t x (taken t)) found
          (fun p => ∃ j < count, p = k.locks.slot j) (fun _ => order) m₀ m ∧
            ∀ j < count, m.Holds k.locks j (.i32 Locking.unlocked)) ∧ ∀ t ∈ all, Keeping ctx B own t (th t) := by
  refine .take <| .take <| .take <| (Fresh.At.registers (by decide) _).bind fun _ accs _ haccs => .pure ?_
  have loops := (h.lockers haccs hk).loop_advances own m₀ (fun β => (found β).1) h.contenders.limit
    ((dests.map (·.withVolatile true)).head?.elim k.locks.space View.space).fence k.locks.space.fence
  unfold Lockers.critical Lockers.work at loops
  rw [h.views_places haccs] at loops
  refine loops.imp (fun m th hm => ?_) fun m th hm => ?_
  · rw [hm.1]
    refine ⟨⟨fun _ _ => rfl, fun t ht => (h.holds t ht).withVolatile true, fun t ht => ?_, fun _ _ => rfl⟩, hm.2⟩
    exact (hk.free _ (Nat.mod_lt _ hk.positive)).withVolatile true
  · obtain ⟨order, hperm, hm, hth⟩ := hm
    exact ⟨⟨order, linearizes_of_guarded hk hperm hm⟩, hth⟩

end

end Updaters
end SegKernel
