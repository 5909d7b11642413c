import Mathlib.Tactic.ByContra
import SegKernel.Proofs.Lowering.Operations

/-! What lowering never does, whatever the module. It breaks off only with a report, other than where a
    reduction over a launch has more neutral elements than values, and it flags no kernel as failure
    tolerant that has an atomic operation. -/

namespace SegKernel

/-- The kernel is not flagged as failure tolerant if it has an atomic operation. -/
def Kernel.FlaggedRightly (k : Kernel) : Prop := k.failureTolerant = true → k.body.usesAtomics = false

namespace Lowering
variable {α β : Type} {S : Prop}

/-- A computation that flags its kernels rightly, that ends with a report if it fails, unless `S`, and that has
    results in `Q`. -/
structure Careful (S : Prop) {α : Type} (f : Lowering α) (Q : α → Prop) : Prop where
  flags : ∀ {setting σ a σ'}, f setting σ = .ok (a, σ') →
    ∀ k ∈ σ'.program.kernels, k ∈ σ.program.kernels ∨ k.FlaggedRightly
  reports : ∀ {setting σ e}, f setting σ = .error e → e.notice?.isSome = true ∨ S
  results : ∀ {setting σ a σ'}, f setting σ = .ok (a, σ') → Q a

namespace Careful
variable {Q : α → Prop}

/-- A computation that cannot fail and leaves the kernels as they are. -/
theorem of_ok {f : Lowering α} (h : ∀ setting σ, ∃ a σ', f setting σ = .ok (a, σ') ∧
    σ'.program.kernels = σ.program.kernels ∧ Q a) : Careful S f Q where
  flags {setting σ a σ'} hf k hk := by
    obtain ⟨a', σ₁, ha, hkernels, -⟩ := h setting σ
    cases ha.symm.trans hf
    exact Or.inl (hkernels ▸ hk)
  reports {setting σ e} hf := by
    obtain ⟨a', σ₁, ha, -⟩ := h setting σ
    cases ha.symm.trans hf
  results {setting σ a σ'} hf := by
    obtain ⟨a', σ₁, ha, -, hQ⟩ := h setting σ
    cases ha.symm.trans hf
    exact hQ

/-- A computation that fails with a report, unless `S`. -/
theorem of_throw {e : LowerError} (he : e.notice?.isSome = true ∨ S) : Careful S (throw e : Lowering α) Q where
  flags h := (throw_ne_ok.mp h).elim
  reports h := by
    cases h
    exact he
  results h := (throw_ne_ok.mp h).elim

/-- A change of the session that leaves the kernels. -/
theorem change {f : Session → Session} (h : ∀ σ, (f σ).program.kernels = σ.program.kernels) :
    Careful S (modify f : Lowering Unit) fun _ => True := of_ok fun _ σ => ⟨(), f σ, rfl, h σ, trivial⟩

theorem bind_of {f : Lowering α} {g : α → Lowering β} {R : β → Prop} (hf : Careful S f Q)
    (hg : ∀ a, Q a → Careful S (g a) R) : Careful S (f >>= g) R where
  flags h k hk := by
    obtain ⟨a, σ₁, ha, hb⟩ := bind_eq_ok.mp h
    rcases (hg a (hf.results ha)).flags hb k hk with hk | hk
    · exact hf.flags ha k hk
    · exact Or.inr hk
  reports {setting σ e} h := by
    rw [bind_apply] at h
    cases hr : f setting σ with
    | error e' =>
      rw [hr] at h
      cases h
      exact hf.reports hr
    | ok r =>
      rw [hr] at h
      exact (hg _ (hf.results hr)).reports h
  results h := by
    obtain ⟨a, σ₁, ha, hb⟩ := bind_eq_ok.mp h
    exact (hg a (hf.results ha)).results hb

theorem liftExcept {f : ExceptT LowerError Fresh α} (h : Fresh.Reports f) :
    Careful S (liftM f : Lowering α) fun _ => True where
  flags {setting σ a σ'} hf k hk := by
    simp only [liftM, monadLift, MonadLift.monadLift] at hf
    split at hf
    · cases hf
      exact Or.inl hk
    · cases hf
  reports {setting σ e} hf := by
    simp only [liftM, monadLift, MonadLift.monadLift] at hf
    split at hf
    · cases hf
    · rename_i hrun
      obtain rfl := Except.error.inj hf
      exact Or.inl (h σ.names _ (congrArg Prod.fst hrun))
  results _ := trivial

theorem composable : Composable (Careful S) where
  pure h := of_ok fun _ σ => ⟨_, σ, rfl, rfl, h⟩
  bind_of := bind_of
  results h hQ := { h with results := hQ }
  report h := of_throw (Or.inl h)
  lift _ := of_ok fun _ _ => ⟨_, _, rfl, rfl, trivial⟩
  liftExcept := liftExcept
  read := of_ok fun _ _ => ⟨_, _, rfl, rfl, trivial⟩
  get := of_ok fun _ _ => ⟨_, _, rfl, rfl, trivial⟩
  markScatter := change fun _ => rfl

theorem allocate (stem : String) (type : ScalarType) (length : Exp) :
    Careful S (allocate stem type length) fun _ => True := by
  refine composable.bind (composable.lift _) fun _ => composable.bind (change ?_) fun _ => composable.done
  exact fun _ => rfl

/-- A kernel is flagged as failure tolerant only if it has no atomic operation. -/
theorem emitKernel (stem : String) (numGroups groupSize : Exp) (body : Stmt) :
    Careful S (emitKernel stem numGroups groupSize body) fun _ => True := by
  unfold Lowering.emitKernel
  refine composable.bind (composable.lift _) fun name => ?_
  have finish : ∀ body : Stmt, Careful S (do
      let captures ← Lowering.captures name body
      modify fun s =>
        let failureTolerant := !body.usesAtomics && !s.scatters
        let kernel : Kernel := { name, body, captures, numGroups, groupSize, failureTolerant }
        { s with program := { s.program with kernels := s.program.kernels ++ [kernel] }, scatters := false })
      fun _ => True := by
    refine fun body => composable.bind (composable.captures name body) fun cs =>
      ⟨fun h k hk => ?_, fun h => (by cases h), fun _ => trivial⟩
    obtain rfl := modify_eq_ok.mp h
    rcases List.mem_append.mp hk with hk | hk
    · exact Or.inl hk
    · rw [List.mem_singleton.mp hk]
      refine Or.inr fun htolerant => ?_
      dsimp only at htolerant
      rw [Bool.and_eq_true, Bool.not_eq_true'] at htolerant
      exact htolerant.1
  dsimp only
  split
  · exact composable.bind composable.done finish
  · exact composable.bind (composable.limitation _ _) finish

theorem fill (kernel : String) (n : Exp) (element : Exp → Fresh Stmt) :
    Careful S (fill kernel n element) fun _ => True :=
  composable.bind composable.read fun _ => composable.bind (composable.lift _) fun _ =>
    composable.bind (change fun _ => rfl) fun _ => composable.bind (composable.lift _) fun _ => emitKernel _ _ _ _

theorem steps : Composable.Steps (Careful S) (fun _ => True) fun _ => True where
  toComposable := composable
  sizing := ⟨fun _ => trivial, fun _ _ => trivial, fun _ _ => trivial, fun _ _ => trivial⟩
  globalArray? _ := composable.results (composable.bind composable.read fun _ => composable.bind composable.get fun _ =>
    composable.done) fun _ _ _ _ _ => trivial
  allocate stem type length _ := allocate stem type length
  fill kernel _ element _ := fill kernel _ element
  emitKernel stem _ _ body _ _ _ := emitKernel stem _ _ body

end Careful

/-! ### Modules -/

end Lowering

/-- Some reduction over a launch has more neutral elements than values. -/
def Module.RunsShort (m : Module) : Prop := ∃ pattern op ops, HostOp.seg pattern op ∈ m.ops ∧
  op.grid.level = .thread ∧ op.kind = .reduce ops ∧ ¬Lowering.EnoughValues ops

namespace Lowering

theorem hostOp_careful {m : Module} {op : HostOp} (hop : op ∈ m.ops) :
    Careful m.RunsShort (hostOp op) fun _ => True := by
  refine Careful.steps.hostOp (fun _ _ => trivial) (fun _ _ _ => trivial) ?_
  by_cases h : m.RunsShort
  · exact Or.inl fun _ _ => Careful.of_throw (Or.inr h)
  · refine Or.inr fun pattern inner ops e hlevel hkind => ?_
    by_contra hshort
    exact h ⟨pattern, inner, ops, e ▸ hop, hlevel, hkind, hshort⟩

theorem module_careful (m : Module) : Careful m.RunsShort (m.ops.forM hostOp) fun _ => True :=
  Careful.composable.forM fun _ hop => hostOp_careful hop

end Lowering

/-! ### Whole modules -/

namespace Module

/-- A kernel that is flagged as failure tolerant has no atomic operation. -/
theorem lower_flags {m : Module} {config : Config} {p : Program} (h : m.lower config = .ok p) :
    ∀ k ∈ p.kernels, k.FlaggedRightly := by
  obtain ⟨σ, hrun, rfl⟩ := lower_eq_ok.mp h
  intro k hk
  rcases (Lowering.module_careful m).flags hrun k hk with hk | hk
  · cases hk
  · exact hk

/-- The first kernel of the program of a module. -/
def firstKernel? (m : Module) (config : Config) : Option Kernel :=
  match m.lower config with
  | .ok p => p.kernels.head?
  | .error _ => none

theorem mem_of_firstKernel? {m : Module} {config : Config} {k : Kernel} (h : m.firstKernel? config = some k) :
    ∃ p, m.lower config = .ok p ∧ k ∈ p.kernels := by
  unfold firstKernel? at h
  cases hlower : m.lower config with
  | ok p =>
    rw [hlower] at h
    exact ⟨p, rfl, List.mem_of_head? h⟩
  | error e =>
    rw [hlower] at h
    cases h

/-- A module is lowered to a program, or what is wrong with it is reported. -/
theorem lowered_or_reported {m : Module} (hm : ¬m.RunsShort) (config : Config) :
    (∃ p, m.lower config = .ok p) ∨ ∃ e notice, m.lower config = .error e ∧ e.notice? = some notice := by
  unfold lower
  cases hrun : (m.ops.forM Lowering.hostOp) ⟨config, m.env⟩ {} with
  | error e =>
    rw [ReaderT.run, StateT.run, hrun]
    obtain ⟨notice, hnotice⟩ := Option.isSome_iff_exists.mp
      (((Lowering.module_careful m).reports hrun).resolve_right hm)
    exact Or.inr ⟨e, notice, rfl, hnotice⟩
  | ok r =>
    rw [ReaderT.run, StateT.run, hrun]
    exact Or.inl ⟨r.2.program, rfl⟩

/-- The sum of an array, by an operator with the given neutral elements. -/
def total (neutral : List Operand) (results : List BodyResult) : Module where
  env := {
    arrays := (({} : Table _).insert "xs" (.i32, [.var "n"])).insert "total" (.i32, [.int 1])
    scalars := ({} : Table _).insert "n" .i64 }
  ops := [.seg [⟨"total", .i32, [.int 1]⟩] {
    kind := .reduce [{ lambda := .ofOperator .add .i32, neutral }]
    grid := ⟨.thread, .int 4, .int 64, .direct⟩
    space := ⟨"flat", [("i", .var "n")]⟩
    stms := [.index "x" .i32 "xs" [.var "i"]]
    results }]

/-- How the lowering of a module ends without a program. -/
def failure? (m : Module) (config : Config) : Option LowerError :=
  match m.lower config with
  | .ok _ => none
  | .error e => some e

/-- An operator of one component with two contributions is reported. -/
theorem total_reported : let m := total [.const (.i32 0)] [.returns (.var "x"), .returns (.var "x")]
    ¬m.RunsShort ∧ ((∃ p, m.lower {} = .ok p) ∨ ∃ e notice, m.lower {} = .error e ∧ e.notice? = some notice) ∧
      m.failure? {} = some (.defect (.reductionCounts 2 1 1) none) := by
  have hm : ¬(total [.const (.i32 0)] [.returns (.var "x"), .returns (.var "x")]).RunsShort := by
    rintro ⟨pattern, op, ops, hop, -, hkind, hshort⟩
    cases List.mem_singleton.mp hop
    cases hkind
    exact hshort (by decide)
  exact ⟨hm, lowered_or_reported hm {}, by decide +kernel⟩

/-- An operator of one component with two neutral elements makes lowering break off without a report. -/
theorem total_breaks_off : let m := total [.const (.i32 0), .const (.i32 0)] [.returns (.var "x")]
    m.RunsShort ∧ m.failure? {} = some (.outOfRange 2 1) ∧ (LowerError.outOfRange 2 1).notice? = none :=
  ⟨⟨_, _, _, List.mem_singleton_self _, rfl, rfl, by decide⟩, by decide +kernel, rfl⟩

end Module
end SegKernel
