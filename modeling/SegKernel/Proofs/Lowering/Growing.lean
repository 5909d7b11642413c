import SegKernel.Device.Basic
import SegKernel.Proofs.Execution.Threads
import SegKernel.Proofs.Lowering.Sizes

/-! Lowering only adds to a program. The kernels that are there keep their places, tuning parameters have
    the defaults of the settings, and a constant that a kernel carries is one of the module. So the host
    finds each of them where it looks for them. -/

namespace SegKernel

namespace Program

/-- A program that was continued: its kernels come first, and its tuning parameters are still there. -/
structure Begins (p q : Program) : Prop where
  kernels : p.kernels <+: q.kernels
  tuning : ∀ t ∈ p.tuning, t ∈ q.tuning

theorem Begins.refl (p : Program) : p.Begins p := ⟨List.prefix_refl _, fun _ => id⟩

theorem Begins.trans {p q r : Program} (h : p.Begins q) (h' : q.Begins r) : p.Begins r :=
  ⟨h.kernels.trans h'.kernels, fun t ht => h'.tuning t (h.tuning t ht)⟩

/-- The parameters of a program have the defaults of the settings, and the constants of its kernels are those of
    the host. -/
structure Faithful (setting : Setting) (p : Program) : Prop where
  tuning : ∀ t ∈ p.tuning, t.default = setting.config.sizes.sizeOf t.name
  constants : ∀ k ∈ p.kernels, ∀ x v, .constant x v ∈ k.captures → setting.env.constants[x]? = some v

end Program

namespace Lowering
open Program
variable {α β : Type} {setting : Setting} {f : Lowering α} {Q : α → Prop}

/-- A computation that only adds to the program, with results in `Q`. -/
def Grows (setting : Setting) {α : Type} (f : Lowering α) (Q : α → Prop) : Prop :=
  ∀ σ a σ', f setting σ = .ok (a, σ') →
    σ.program.Begins σ'.program ∧ (σ.program.Faithful setting → σ'.program.Faithful setting) ∧ Q a

namespace Grows

/-- A computation that leaves the program. -/
theorem of_program (h : ∀ σ a σ', f setting σ = .ok (a, σ') → σ'.program = σ.program ∧ Q a) : Grows setting f Q := by
  intro σ a σ' hrun
  obtain ⟨hprogram, hQ⟩ := h σ a σ' hrun
  exact ⟨hprogram ▸ .refl _, fun hσ => hprogram ▸ hσ, hQ⟩

theorem bind_of {g : α → Lowering β} {R : β → Prop} (hf : Grows setting f Q) (hg : ∀ a, Q a → Grows setting (g a) R) :
    Grows setting (f >>= g) R := by
  intro σ b σ' hrun
  obtain ⟨a, σ₁, ha, hb⟩ := bind_eq_ok.mp hrun
  obtain ⟨hbegins, hfaithful, hQ⟩ := hf σ a σ₁ ha
  obtain ⟨hbegins', hfaithful', hR⟩ := hg a hQ σ₁ b σ' hb
  exact ⟨hbegins.trans hbegins', fun hσ => hfaithful' (hfaithful hσ), hR⟩

theorem composable : Composable (Grows setting) where
  pure h := of_program fun σ a σ' hrun => by
    obtain ⟨rfl, rfl⟩ := pure_eq_ok.mp hrun
    exact ⟨rfl, h⟩
  bind_of := bind_of
  results hf hR σ a σ' hrun := ⟨(hf σ a σ' hrun).1, (hf σ a σ' hrun).2.1, hR hrun⟩
  report _ σ a σ' hrun := (throw_ne_ok.mp hrun).elim
  lift f := of_program fun σ a σ' hrun => by
    obtain ⟨-, rfl⟩ := lift_eq_ok.mp hrun
    exact ⟨rfl, trivial⟩
  liftExcept _ := of_program fun σ a σ' hrun => by
    simp only [liftM, monadLift, MonadLift.monadLift] at hrun
    split at hrun
    · cases hrun
      exact ⟨rfl, trivial⟩
    · cases hrun
  read := of_program fun σ a σ' hrun => ⟨(read_eq_ok.mp hrun).2 ▸ rfl, trivial⟩
  get := of_program fun σ a σ' hrun => ⟨(get_eq_ok.mp hrun).2 ▸ rfl, trivial⟩
  markScatter := of_program fun σ a σ' hrun => by
    obtain rfl := modify_eq_ok.mp hrun
    exact ⟨rfl, trivial⟩

theorem allocate (stem : String) (type : ScalarType) (length : Exp) :
    Grows setting (allocate stem type length) fun _ => True := by
  intro σ v σ' hrun
  simp only [Lowering.allocate, bind_eq_ok, lift_eq_ok, modify_eq_ok, pure_eq_ok] at hrun
  obtain ⟨name, σ₁, ⟨rfl, rfl⟩, _, σ₂, rfl, -, rfl⟩ := hrun
  exact ⟨⟨List.prefix_refl _, fun _ => id⟩, fun hσ => ⟨hσ.tuning, hσ.constants⟩, trivial⟩

theorem mem_addTuning_of_mem {params new : List TuningParam} {t : TuningParam} (h : t ∈ params) :
    t ∈ Program.addTuning params new := by
  unfold Program.addTuning
  induction new generalizing params with
  | nil => exact h
  | cons p new ih =>
    rw [List.foldl_cons]
    refine ih ?_
    split
    · exact h
    · exact List.mem_append_left _ h

theorem exists_mem_addTuning (params : List TuningParam) (param : TuningParam) :
    ∃ t ∈ Program.addTuning params [param], t.name = param.name := by
  show ∃ t ∈ if params.any (·.name == param.name) then params else params ++ [param], _
  split
  · rename_i h
    obtain ⟨t, ht, hname⟩ := List.any_eq_true.mp h
    exact ⟨t, ht, eq_of_beq hname⟩
  · exact ⟨param, List.mem_append_right _ (List.mem_singleton_self _), rfl⟩

theorem of_mem_addTuning {params : List TuningParam} {new t : TuningParam} (h : t ∈ Program.addTuning params [new]) :
    t ∈ params ∨ t = new := by
  have h : t ∈ if params.any (·.name == new.name) then params else params ++ [new] := h
  split at h
  · exact Or.inl h
  · simpa using h

/-- A tuning parameter with the default of the settings. -/
theorem addTuning {param : TuningParam} (hparam : param.default = setting.config.sizes.sizeOf param.name) :
    Grows setting (addTuning param) fun _ => True := by
  intro σ u σ' hrun
  obtain rfl := modify_eq_ok.mp hrun
  refine ⟨⟨List.prefix_refl _, fun t => mem_addTuning_of_mem⟩, fun hσ => ⟨fun t ht => ?_, hσ.constants⟩, trivial⟩
  rcases of_mem_addTuning ht with ht | rfl
  · exact hσ.tuning t ht
  · exact hparam

/-- What holds of each result of a computation holds of its results for a list. -/
theorem forall_mem_of_mapM {P : β → Prop} {g : α → Lowering β} (h : ∀ {a σ b σ'}, g a setting σ = .ok (b, σ') → P b)
    {as : List α} {bs : List β} {σ σ' : Session} (hrun : as.mapM g setting σ = .ok (bs, σ')) : ∀ b ∈ bs, P b := by
  have each := forall₂_of_mapM (R := fun _ b => P b) h hrun
  clear hrun
  induction each with
  | nil => simp
  | cons hb _ ih => exact List.forall_mem_cons.mpr ⟨hb, ih⟩

/-- A kernel carries constants of the host. -/
theorem constants_of_captures {kernel : String} {body : Stmt} {σ σ' : Session} {cs : List Capture}
    (h : captures kernel body setting σ = .ok (cs, σ')) {x : Ident} {v : Value} (hx : .constant x v ∈ cs) :
    setting.env.constants[x]? = some v := by
  simp only [captures, bind_eq_ok, read_eq_ok, get_eq_ok, pure_eq_ok] at h
  obtain ⟨s, _, ⟨rfl, rfl⟩, σ₀, _, ⟨rfl, rfl⟩, scalars, σ₁, hscalars, memory, σ₂, hmemory, rfl, rfl⟩ := h
  rcases List.mem_append.mp hx with hx | hx
  · refine forall_mem_of_mapM (P := fun c => ∀ x v, c = .constant x v → s.env.constants[x]? = some v)
      ?_ hscalars _ hx x v rfl
    rintro name σ c σ' hc x v rfl
    have hname := (require_eq_ok.mp hc).1
    unfold scalarCapture? at hname
    split at hname
    · rename_i w hw
      cases hname
      exact hw
    · cases hname
    · split at hname <;> cases hname
  · refine forall_mem_of_mapM (P := fun c => ∀ x v, c = .constant x v → s.env.constants[x]? = some v)
      ?_ hmemory _ hx x v rfl
    rintro name σ c σ' hc x v rfl
    simp only [bind_eq_ok, check_eq_ok, pure_eq_ok] at hc
    obtain ⟨_, _, -, hc, -⟩ := hc
    cases hc

theorem emitKernel (stem : String) (numGroups groupSize : Exp) (body : Stmt) :
    Grows setting (emitKernel stem numGroups groupSize body) fun _ => True := by
  intro σ u σ' hrun
  obtain ⟨k, -, -, -, -, hcaptures, rfl⟩ := emitKernel_eq_ok hrun
  refine ⟨⟨List.prefix_append _ _, fun _ => id⟩, fun hσ => ⟨hσ.tuning, ?_⟩, trivial⟩
  refine List.forall_mem_append.mpr ⟨hσ.constants, List.forall_mem_singleton.mpr fun x v => ?_⟩
  exact constants_of_captures hcaptures

theorem fill (kernel : String) (n : Exp) (element : Exp → Fresh Stmt) :
    Grows setting (fill kernel n element) fun _ => True := by
  intro σ u σ' hrun
  simp only [Lowering.fill, bind_eq_ok, read_eq_ok, lift_eq_ok] at hrun
  obtain ⟨s, _, ⟨rfl, rfl⟩, r, _, ⟨hr, rfl⟩, _, σ₁, hparam, body, _, ⟨rfl, rfl⟩, hrun⟩ := hrun
  obtain ⟨rfl⟩ := hr
  obtain ⟨hbegins, hfaithful, -⟩ := addTuning rfl _ _ _ hparam
  obtain ⟨hbegins', hfaithful', -⟩ := emitKernel _ _ _ _ _ _ _ hrun
  exact ⟨hbegins.trans hbegins', fun hσ => hfaithful' (hfaithful ⟨hσ.tuning, hσ.constants⟩), trivial⟩

theorem steps : Composable.Steps (Grows setting) (fun _ => True) fun _ => True where
  toComposable := composable
  sizing := ⟨fun _ => trivial, fun _ _ => trivial, fun _ _ => trivial, fun _ _ => trivial⟩
  globalArray? name := of_program fun σ a σ' hrun => by
    simp only [Lowering.globalArray?, bind_eq_ok, read_eq_ok, get_eq_ok, pure_eq_ok] at hrun
    obtain ⟨_, _, ⟨rfl, rfl⟩, _, _, ⟨rfl, rfl⟩, rfl, rfl⟩ := hrun
    exact ⟨rfl, fun _ _ _ _ => trivial⟩
  allocate stem type length _ := allocate stem type length
  fill kernel n element _ := fill kernel n element
  emitKernel stem _ _ body _ _ _ := emitKernel stem _ _ body

theorem hostOp (op : HostOp) : Grows setting (hostOp op) fun _ => True :=
  steps.hostOp (fun _ _ => trivial) (fun _ _ _ => trivial) (Or.inl fun _ _ _ _ _ hrun => (throw_ne_ok.mp hrun).elim)

theorem hostOps (ops : List HostOp) : Grows setting (ops.forM Lowering.hostOp) fun _ => True :=
  composable.forM fun op _ => hostOp op

end Grows
end Lowering

/-! ### Operations of a module -/

/-- The lowering of a module up to one of its operations, of the operation, and to the end. -/
theorem Module.lower_split {m : Module} {config : Config} {p : Program} {before after : List HostOp} {op : HostOp}
    (hm : m.ops = before ++ op :: after) (h : m.lower config = .ok p) :
    ∃ σ σ', ({ m with ops := before } : Module).lower config = .ok σ.program ∧
      Lowering.hostOp op ⟨config, m.env⟩ σ = .ok ((), σ') ∧ σ'.program.Begins p ∧ p.Faithful ⟨config, m.env⟩ := by
  have faithful : Program.Faithful ⟨config, m.env⟩ {} := ⟨by simp, by simp⟩
  obtain ⟨σ₃, hrun, rfl⟩ := lower_eq_ok.mp h
  have all := (Lowering.Grows.hostOps m.ops {} () σ₃ hrun).2.1 faithful
  rw [hm, show (before ++ op :: after).forM Lowering.hostOp = _ from List.forM_append] at hrun
  obtain ⟨_, σ, hbefore, hrun⟩ := Lowering.bind_eq_ok.mp hrun
  obtain ⟨_, σ', hop, hafter⟩ :=
    Lowering.bind_eq_ok.mp (show (do Lowering.hostOp op; after.forM Lowering.hostOp) _ _ = _ from hrun)
  exact ⟨σ, σ', lower_eq_ok.mpr ⟨σ, hbefore, rfl⟩, hop, (Lowering.Grows.hostOps after σ' () σ₃ hafter).1, all⟩

/-! ### The host -/

namespace Device
variable {d : Device} {p : Program} {setting : Setting}

theorem getElem?_tuned {params : List TuningParam} {scalars : Table Value} {x : Ident} :
    (params.foldl (fun env t => env.insertIfNew t.name (.i64 t.default)) scalars)[x]? =
      (scalars[x]?).or ((params.find? (·.name == x)).map fun t => .i64 t.default) := by
  induction params generalizing scalars with
  | nil => simp
  | cons t params ih =>
    rw [List.foldl_cons, ih, Std.ExtTreeMap.getElem?_insertIfNew, List.find?_cons]
    by_cases hx : t.name = x
    · subst hx
      by_cases hmem : t.name ∈ scalars
      · simp [hmem]
      · simp [hmem]
    · have hne : (t.name == x) = false := by simpa using hx
      simp [hx, hne]

/-- What the host finds under the name of a constant that kernels carry, or of anything else. -/
theorem getElem?_constants {cs : List (Ident × Value)} {env : Table Value} {x : Ident} :
    (∃ v, (x, v) ∈ cs ∧ (cs.foldl (fun env c => env.insert c.1 c.2) env)[x]? = some v) ∨
      (∀ c ∈ cs, c.1 ≠ x) ∧ (cs.foldl (fun env c => env.insert c.1 c.2) env)[x]? = env[x]? := by
  induction cs generalizing env with
  | nil => exact Or.inr ⟨by simp, rfl⟩
  | cons c cs ih =>
    rw [List.foldl_cons]
    rcases @ih (env.insert c.1 c.2) with ⟨v, hv, h⟩ | ⟨hne, h⟩
    · exact Or.inl ⟨v, List.mem_cons_of_mem c hv, h⟩
    · rw [h, Table.getElem?_insert]
      by_cases hc : c.1 = x
      · rw [if_pos hc]
        exact Or.inl ⟨c.2, hc ▸ List.mem_cons_self, rfl⟩
      · rw [if_neg hc]
        exact Or.inr ⟨List.forall_mem_cons.mpr ⟨hc, hne⟩, rfl⟩

theorem constant_of_mem (h : p.Faithful setting) {x : Ident} {v : Value} (hx : (x, v) ∈ constants p) :
    setting.env.constants[x]? = some v := by
  obtain ⟨k, hk, hx⟩ := List.mem_flatMap.mp hx
  obtain ⟨c, hc, hcx⟩ := List.mem_filterMap.mp hx
  split at hcx
  · cases hcx
    exact h.constants k hk _ _ hc
  · cases hcx

/-- The host knows a constant that a kernel carries. -/
theorem hostEnv_constant (h : p.Faithful setting) {k : Kernel} (hk : k ∈ p.kernels) {x : Ident} {v : Value}
    (hx : .constant x v ∈ k.captures) : (d.hostEnv p)[x]? = some v := by
  have hmem : (x, v) ∈ constants p := List.mem_flatMap.mpr ⟨k, hk, List.mem_filterMap.mpr ⟨_, hx, rfl⟩⟩
  unfold hostEnv
  rcases @getElem?_constants (constants p) _ x with ⟨w, hw, hfound⟩ | ⟨hne, -⟩
  · rw [hfound, ← constant_of_mem h hw, constant_of_mem h hmem]
  · exact absurd rfl (hne _ hmem)

/-- The host knows what a tuning parameter is bound to, or its default. -/
theorem hostEnv_tuning (h : p.Faithful setting) {t : TuningParam} (ht : t ∈ p.tuning)
    (hconstant : t.name ∉ setting.env.constants) :
    (d.hostEnv p)[t.name]? = some ((d.scalars[t.name]?).getD (.i64 (setting.config.sizes.sizeOf t.name))) := by
  unfold hostEnv
  rcases @getElem?_constants (constants p) _ t.name with ⟨w, hw, -⟩ | ⟨-, hfound⟩
  · exact absurd (Std.ExtTreeMap.mem_iff_isSome_getElem?.mpr (by rw [constant_of_mem h hw, Option.isSome_some]))
      hconstant
  · rw [hfound, getElem?_tuned]
    cases d.scalars[t.name]? with
    | some v => rfl
    | none =>
      obtain ⟨t', hfind⟩ := Option.isSome_iff_exists.mp
        (List.find?_isSome (p := fun t' : TuningParam => t'.name == t.name) |>.mpr ⟨t, ht, beq_self_eq_true _⟩)
      have hdefault := h.tuning t' (List.mem_of_find?_eq_some hfind)
      have hname := List.find?_some (p := fun t' : TuningParam => t'.name == t.name) hfind
      rw [eq_of_beq hname] at hdefault
      rw [hfind, ← hdefault]
      rfl

end Device
end SegKernel
