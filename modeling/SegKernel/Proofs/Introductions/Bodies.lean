import SegKernel.Lowering.Nested
import SegKernel.Proofs.Introductions.Collectives

/-! What bodies declare. Their statements bind names of the module, which a tally may ignore; all else that
    the code of a body declares has new names. -/

namespace SegKernel
open Tally

/-- The names that a program brings in: those of its arrays and kernels, and what the kernels declare. -/
def Program.introduced (p : Program) : List Ident :=
  p.allocations.map (·.name) ++ p.kernels.flatMap fun k => k.name :: k.body.declared

/-! ### Lowering computations -/

namespace Lowering

/-- What the result of a computation counts, and what it adds to the program, is `given`, or comes from the
    names that it takes. -/
def Costs {α : Type} (t : Tally) (setting : Setting) (f : Lowering α) (given : Nat) (cost : α → Nat) : Prop :=
  ∀ σ a σ', f setting σ = .ok (a, σ') → σ.names ≤ σ'.names ∧
    cost a + t.sum σ'.program.introduced ≤ given + t.sum σ.program.introduced + t.within σ.names σ'.names

/-- A computation in whose result nothing counts. -/
def Silent {α : Type} (t : Tally) (setting : Setting) (f : Lowering α) : Prop := Costs t setting f 0 fun _ => 0

section
variable {α β : Type} {t : Tally} {setting : Setting} {f : Lowering α} {given given' : Nat} {c : α → Nat}

namespace Costs

/-- A computation that leaves the session. -/
theorem of_eq (h : ∀ σ a σ', f setting σ = .ok (a, σ') → c a ≤ given ∧ σ' = σ) : Costs t setting f given c := by
  intro σ a σ' ha
  obtain ⟨hc, rfl⟩ := h σ a σ' ha
  rw [within_self]
  exact ⟨Nat.le_refl _, by omega⟩

theorem pure {a : α} (h : c a ≤ given) : Costs t setting (Pure.pure a) given c := of_eq fun σ b σ' hb => by
  obtain ⟨rfl, rfl⟩ := pure_eq_ok.mp hb
  exact ⟨h, rfl⟩

theorem mono (h : Costs t setting f given c) (hle : given ≤ given') : Costs t setting f given' c := fun σ a σ' ha => by
  obtain ⟨hn, hcost⟩ := h σ a σ' ha
  exact ⟨hn, by omega⟩

/-- What the first result counts is given to the rest, with what is kept for it. -/
theorem bindWith {g : α → Lowering β} {c' : β → Nat} (kept : Nat) (hf : Costs t setting f given c)
    (hg : ∀ a, Costs t setting (g a) (kept + c a) c') (hle : kept + given ≤ given') :
    Costs t setting (f >>= g) given' c' := by
  intro σ b σ' hb
  obtain ⟨a, σ₁, ha, hb⟩ := bind_eq_ok.mp hb
  obtain ⟨hn, hcost⟩ := hf σ a σ₁ ha
  obtain ⟨hm, hcost'⟩ := hg a σ₁ b σ' hb
  have := within_add (t := t) hn hm
  exact ⟨Nat.le_trans hn hm, by omega⟩

theorem bind {g : α → Lowering β} {c' : β → Nat} (hf : Costs t setting f 0 c)
    (hg : ∀ a, Costs t setting (g a) (given + c a) c') : Costs t setting (f >>= g) given c' :=
  bindWith given hf hg (Nat.le_refl _)

theorem lift {g : Fresh α} (h : Fresh.Costs t g given c) : Costs t setting (liftM g) given c := by
  intro σ a σ' ha
  obtain ⟨rfl, rfl⟩ := lift_eq_ok.mp ha
  obtain ⟨hn, hcost⟩ := h σ.names
  exact ⟨hn, by dsimp only; omega⟩

theorem liftExcept {g : ExceptT LowerError Fresh α} (h : Fresh.CostsUnlessFailed t g given c) :
    Costs t setting (liftM g) given c := by
  intro σ a σ' ha
  obtain ⟨hn, hcost⟩ := h σ.names
  simp only [liftM, monadLift, MonadLift.monadLift] at ha
  split at ha
  · rename_i b names hrun
    rw [show Fresh.run g.run σ.names = (.ok b, names) from hrun] at hn hcost
    cases ha
    exact ⟨hn, by
      change c a ≤ given + t.within σ.names names at hcost
      dsimp only
      omega⟩
  · cases ha

theorem mapM {g : α → Lowering β} {c : β → Nat} : ∀ {as : List α}, (∀ a ∈ as, Costs t setting (g a) 0 c) →
    Costs t setting (as.mapM g) 0 fun bs => (bs.map c).sum
  | [], _ => by
    rw [List.mapM_nil]
    exact pure (Nat.le_refl _)
  | a :: as, h => by
    rw [List.mapM_cons]
    refine (h a List.mem_cons_self).bind fun b => (mapM fun a' ha' => h a' (List.mem_cons_of_mem a ha')).bind fun bs =>
      pure ?_
    rw [List.map_cons, List.sum_cons]
    omega

theorem silent (h : Costs t setting f 0 c) : Silent t setting f := fun σ a σ' ha =>
  ⟨(h σ a σ' ha).1, Nat.le_trans (Nat.add_le_add_right (Nat.zero_le _) _) (h σ a σ' ha).2⟩

theorem throw {e : LowerError} :
    Costs t setting (throw e : Lowering α) given c := fun _ _ _ h => (throw_ne_ok.mp h).elim

theorem limitation {cause : Limitation} {span : Option Span} :
    Costs t setting (limitation cause span : Lowering α) given c := throw

theorem defect {cause : Defect} {span : Option Span} : Costs t setting (defect cause span : Lowering α) given c := throw

end Costs

namespace Silent

theorem bind {g : α → Lowering β} {c : β → Nat} (hf : Silent t setting f) (hg : ∀ a, Costs t setting (g a) given c) :
    Costs t setting (f >>= g) given c :=
  Costs.bind hf hg

theorem pure {a : α} : Silent t setting (Pure.pure a) := Costs.pure (Nat.le_refl _)

theorem of_eq (h : ∀ σ a σ', f setting σ = .ok (a, σ') → σ' = σ) : Silent t setting f :=
  Costs.of_eq fun σ a σ' ha => ⟨Nat.le_refl _, h σ a σ' ha⟩

theorem read : Silent t setting read := of_eq fun _ _ _ h => (read_eq_ok.mp h).2

theorem get : Silent t setting get := of_eq fun _ _ _ h => (get_eq_ok.mp h).2

theorem check {condition : Bool} {cause : Defect} {span : Option Span} :
    Silent t setting (check condition cause span) :=
  of_eq fun _ _ _ h => (check_eq_ok.mp h).2

theorem inRange {taken available : Nat} : Silent t setting (inRange taken available) :=
  of_eq fun _ _ _ h => (inRange_eq_ok.mp h).2

theorem require {a? : Option α} {cause : Defect} {span : Option Span} : Silent t setting (require a? cause span) :=
  of_eq fun _ _ _ h => (require_eq_ok.mp h).2

theorem globalArray? {name : Ident} : Silent t setting (globalArray? name) :=
  read.bind fun _ => get.bind fun _ => pure

theorem globalArray {name : Ident} {place : String} {span : Option Span} :
    Silent t setting (globalArray name place span) :=
  globalArray?.bind fun _ => require

theorem markScatter : Silent t setting markScatter := by
  intro σ a σ' ha
  obtain rfl := modify_eq_ok.mp ha
  rw [within_self]
  exact ⟨Nat.le_refl _, by dsimp only; omega⟩

theorem addTuning {param : TuningParam} : Silent t setting (addTuning param) := by
  intro σ a σ' ha
  obtain rfl := modify_eq_ok.mp ha
  rw [within_self]
  exact ⟨Nat.le_refl _, by simp [Program.introduced]⟩

theorem mapM {g : α → Lowering β} {as : List α} (h : ∀ a ∈ as, Silent t setting (g a)) : Silent t setting (as.mapM g) :=
  (Costs.mapM h).silent

/-- The name of an array that the program allocates is taken for it. -/
theorem allocate {stem : String} (hstem : stem ∈ arrayStems) {type : ScalarType} {length : Exp} :
    Silent t setting (allocate stem type length) := by
  intro σ v σ' hv
  simp only [Lowering.allocate, bind_eq_ok, lift_eq_ok, modify_eq_ok, pure_eq_ok] at hv
  obtain ⟨name, σ₁, ⟨rfl, rfl⟩, _, σ₂, rfl, rfl, rfl⟩ := hv
  have := weight_new (t := t) (List.mem_append_left kernelStems (List.mem_append_right _ hstem)) σ.names
  simp only [Program.introduced, List.map_append, List.map_cons, List.map_nil, sum_append, sum_cons, sum_nil, run_fresh]
  exact ⟨Nat.le_succ _, by omega⟩

end Silent
end
end Lowering

open Lowering
variable {t : Tally} {setting : Setting}

/-! ### Statements -/

namespace Tally.Ignores
variable {op : SegOp}

theorem space (h : t.Ignores op.allNames) : t.Ignores op.space.names := h.mono fun x hx => by
  rw [op.allNames_def]
  exact List.mem_append_left _ (List.mem_append_left _ hx)

theorem binds (h : t.Ignores op.allNames) : t.Ignores (op.stms.flatMap BodyStm.binds) := h.mono fun x hx => by
  rw [op.allNames_def]
  exact List.mem_append_left _ (List.mem_append_right _ hx)

theorem inner (h : t.Ignores op.allNames) : t.Ignores (BodyStm.innerNamesAll op.stms) := h.mono fun x hx => by
  rw [op.allNames_def]
  exact List.mem_append_right _ hx

end Tally.Ignores

theorem BodyScope.array?_silent (scope : BodyScope) (name : Ident) : Silent t setting (scope.array? name) := by
  unfold array?
  split
  · exact .pure
  · exact .globalArray?

theorem BodyScope.array_silent (scope : BodyScope) (name : Ident) : Silent t setting (scope.array name) :=
  (array?_silent scope name).bind fun _ => Silent.require

namespace BodyStm

theorem readCode_costs (scope : BodyScope) (name : Ident) (type : ScalarType) (array : Ident) (index : List Exp) :
    Costs t setting (readCode scope name type array index) (t.weight name) t.of := by
  refine (scope.array_silent array).bind fun a => Silent.check.bind fun _ => Silent.check.bind fun _ => ?_
  refine Silent.read.bind fun _ => .pure ?_
  rw [of_block, ofAll_cons, ofAll_cons, of_declare]
  split
  · rw [of_when_of_zero of_read]
    simp
  · simp

theorem of_arrayCode (name : Ident) (type : ScalarType) (elems : List Operand) :
    t.of (arrayCode name type elems).1 = t.weight name := by
  rw [arrayCode, of_block, ofAll_cons, of_declareArray, ofAll_eq_zero, Nat.add_zero]
  intro s hs
  obtain ⟨i, -, rfl⟩ := List.mem_mapIdx.mp hs
  exact of_write

/-- What the code of a nested operation declares has new names, where the names of the module are ignored. -/
def CostsNothing (t : Tally) (setting : Setting) (nestedCode : NestedCode) : Prop :=
  ∀ scope pattern op, t.Ignores (pattern.map (·.name)) → t.Ignores op.allNames →
    Costs t setting (nestedCode scope pattern op) 0 fun r => t.of r.1

theorem code_costs {nestedCode : NestedCode} (hnested : CostsNothing t setting nestedCode) (scope : BodyScope)
    {stm : BodyStm} (hbinds : t.Ignores stm.binds) (hinner : t.Ignores stm.innerNames) :
    Costs t setting (stm.code nestedCode scope) 0 fun r => t.of r.1 := by
  have weight := hbinds.sum
  cases stm with
  | compute name type value =>
    refine .pure ?_
    rw [of_declareInit]
    exact Nat.le_of_eq weight
  | index name type array is =>
    refine Costs.bindWith 0 (readCode_costs scope name type array is) (fun code => .pure ?_) (Nat.le_of_eq ?_)
    · exact Nat.le_of_eq (Nat.zero_add _).symm
    · exact (Nat.zero_add _).trans weight
  | arrayLit name type elems =>
    exact .pure (Nat.le_of_eq ((of_arrayCode name type elems).trans weight))
  | nested pattern op => exact hnested scope pattern op hbinds hinner

theorem codeAll_costs {nestedCode : NestedCode} (hnested : CostsNothing t setting nestedCode) :
    ∀ (scope : BodyScope) {stms : List BodyStm}, t.Ignores (stms.flatMap binds) → t.Ignores (innerNamesAll stms) →
      Costs t setting (codeAll nestedCode scope stms) 0 fun r => t.ofAll r.1
  | _, [], _, _ => .pure (Nat.le_refl _)
  | scope, stm :: stms, hbinds, hinner => by
    rw [List.flatMap_cons] at hbinds
    rw [innerNamesAll] at hinner
    refine (code_costs hnested scope (hbinds.mono (List.subset_append_left _ _))
      (hinner.mono (List.subset_append_left _ _))).bind fun first => ?_
    refine (codeAll_costs hnested first.2 (hbinds.mono (List.subset_append_right _ _))
      (hinner.mono (List.subset_append_right _ _))).bind fun rest => .pure ?_
    rw [ofAll_cons]
    omega

/-- The body of an operation, run by single threads. -/
theorem threadBody_costs (scope : BodyScope) {op : SegOp} (h : t.Ignores op.allNames) :
    Costs t setting (threadBody scope op.stms) 0 fun r => t.of r.1 := by
  refine (codeAll_costs (fun _ _ _ _ _ => .defect) scope h.binds h.inner).bind fun r => .pure ?_
  rw [of_block]
  omega

end BodyStm
end SegKernel
