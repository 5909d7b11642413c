import SegKernel.Proofs.Convergence.Hoisted
import SegKernel.Proofs.Hoisting.Launches
import SegKernel.Proofs.Introductions.Modules
import SegKernel.Proofs.Lowering.Operations
import SegKernel.Proofs.Maps.Launches

/-! The kernel of a map as a frame around the code of its points, by threads or by groups, whatever this code is.
    What it declares is bound by the map or new, so the host can serve the kernel; and a group that runs the
    hoisted frame first makes all shared arrays. -/

namespace SegKernel
open Exp Lowering

/-! ### Lowering -/

namespace Lowering
variable {α : Type} {setting : Setting}

/-- A computation that adds neither kernels nor tuning parameters to the program, with results in `Q`. -/
def Spares (setting : Setting) {α : Type} (f : Lowering α) (Q : α → Prop) : Prop :=
  ∀ σ a σ', f setting σ = .ok (a, σ') → Q a ∧ σ'.program.kernels = σ.program.kernels ∧
    σ'.program.tuning = σ.program.tuning

namespace Spares
variable {f : Lowering α} {Q : α → Prop}

/-- A computation that leaves the program. -/
theorem of_program (h : ∀ σ a σ', f setting σ = .ok (a, σ') → Q a ∧ σ'.program = σ.program) : Spares setting f Q := by
  intro σ a σ' ha
  obtain ⟨hQ, hprogram⟩ := h σ a σ' ha
  exact ⟨hQ, by rw [hprogram], by rw [hprogram]⟩

theorem composable : Composable (Spares setting) where
  pure hQ := of_program fun _ _ _ h => by
    obtain ⟨rfl, rfl⟩ := pure_eq_ok.mp h
    exact ⟨hQ, rfl⟩
  bind_of hf hg σ b σ' h := by
    obtain ⟨a, σ₁, ha, hb⟩ := bind_eq_ok.mp h
    obtain ⟨hQ, hkernels, htuning⟩ := hf σ a σ₁ ha
    obtain ⟨hR, hkernels', htuning'⟩ := hg a hQ σ₁ b σ' hb
    exact ⟨hR, hkernels'.trans hkernels, htuning'.trans htuning⟩
  results hf hR σ a σ' h := ⟨hR h, (hf σ a σ' h).2⟩
  report _ _ _ _ h := (throw_ne_ok.mp h).elim
  lift _ := of_program fun _ _ _ h => by
    obtain ⟨rfl, rfl⟩ := lift_eq_ok.mp h
    exact ⟨trivial, rfl⟩
  liftExcept _ := of_program fun _ _ _ h => by
    simp only [liftM, monadLift, MonadLift.monadLift] at h
    split at h
    · cases h
      exact ⟨trivial, rfl⟩
    · cases h
  read := of_program fun _ _ _ h => ⟨trivial, by rw [(read_eq_ok.mp h).2]⟩
  get := of_program fun _ _ _ h => ⟨trivial, by rw [(get_eq_ok.mp h).2]⟩
  markScatter := of_program fun _ _ _ h => by
    obtain rfl := modify_eq_ok.mp h
    exact ⟨trivial, rfl⟩

theorem ignoresBreaks : IgnoresBreaks (Spares setting) := fun _ _ _ _ _ h => (throw_ne_ok.mp h).elim

theorem allocate {stem : String} {type : ScalarType} {length : Exp} :
    Spares setting (allocate stem type length) fun _ => True := by
  intro σ v σ' h
  simp only [Lowering.allocate, bind_eq_ok, lift_eq_ok, modify_eq_ok, pure_eq_ok] at h
  obtain ⟨name, σ₁, ⟨rfl, rfl⟩, _, σ₂, rfl, -, rfl⟩ := h
  exact ⟨trivial, rfl, rfl⟩

theorem groupBody {scope : BodyScope} {stms : List BodyStm} :
    Spares setting (BodyStm.groupBody scope stms) (·.2.launch = scope.launch) := by
  refine composable.bind_of (composable.codeAll
    (fun scope pattern op hlaunch _ => hlaunch ▸ composable.nestedCode ?_) rfl)
    fun _ hlaunch => composable.pure hlaunch
  exact fun _ _ _ _ _ => composable.bind (composable.mapM fun _ _ => allocate) fun _ => composable.done

end Spares
end Lowering

/-! ### Frames -/

/-- Gives the points of a space to the threads or to the groups of a launch. -/
def Launch.coverBy (l : Launch) : Level → Coverage → IterationSpace → Fresh Nest
  | .thread => l.coverByThreads
  | .group => l.coverByGroups

namespace Segmented
variable {op : SegOp} {H : Surroundings} {setting : Setting} {pattern : List PatElem} {σ σ' : Session} {u : Unit}
  {n : Nat}

/-- What a kernel computes before it visits points. Only groups have operations in their bodies. -/
def ahead (op : SegOp) (env : HostEnv) (launch : Launch) : Fresh (Launch × Stmt) :=
  match op.grid.level with
  | .thread => pure (launch, .skip)
  | .group => launch.precompute env op.stms

/-- The code of a map around the code of its points, made when some names were taken. -/
def frame (op : SegOp) (env : HostEnv) (n : Nat) (code : Stmt) : Stmt :=
  let start := (Launch.start op.grid.groupCount op.grid.groupWidth).run n
  let ahead := (op.ahead env start.1.1).run start.2
  .block [start.1.2, ahead.1.2, ((ahead.1.1.coverBy op.grid.level op.grid.coverage op.space).run ahead.2).1.wrap code]

/-- A kernel made of the frame of a map around some code, with all that it needs from a host. -/
structure Frames (op : SegOp) (H : Surroundings) (k : Kernel) : Prop where
  codes : ∃ n code, (op.frame H.env n code).hoist = .ok k.body
  numGroups : k.numGroups = op.grid.groupCount
  groupSize : k.groupSize = op.grid.groupWidth
  captures : ∃ captured, k.captures.foldlM (Device.capture H.host H.memory) {} = .ok captured ∧
    k.body.Agrees captured (H.env.bindings H.host)

/-- The kernel that is added to a program without tuning parameters, if the program declares no variable of the host,
    and there is memory for what it allocates. -/
theorem emitKernel_served (hH : H.Complete) (henv : setting.env = H.env) (htuning : σ.program.tuning = [])
    (hallocated : ∀ a ∈ σ'.program.allocations, a.name ∈ H.memory)
    (hunknown : ∀ x ∈ σ'.program.introduced, ¬H.env.Known x) {stem : String} {numGroups groupSize : Exp} {whole : Stmt}
    (h : emitKernel stem numGroups groupSize whole setting σ = .ok (u, σ')) :
    ∃ k, σ'.program = { σ.program with kernels := σ.program.kernels ++ [k] } ∧ whole.hoist = .ok k.body ∧
      k.numGroups = numGroups ∧
      k.groupSize = groupSize ∧ ∃ captured, k.captures.foldlM (Device.capture H.host H.memory) {} = .ok captured ∧
        k.body.Agrees captured (H.env.bindings H.host) := by
  obtain ⟨k, -, -, -, hhoist, -, he⟩ := emitKernel_eq_ok h
  have allocations : ∀ a ∈ σ.program.allocations, a.name ∈ H.memory ∧ ¬H.env.Known a.name := fun a ha => by
    have ha' : a ∈ σ'.program.allocations := by
      rw [he]
      exact ha
    exact ⟨hallocated a ha', hunknown _ (List.mem_append_left _ (List.mem_map_of_mem ha'))⟩
  have declared : ∀ x ∈ whole.declared, ¬H.env.Known x := fun x hx => hunknown x (by
    have hk : k ∈ σ'.program.kernels := by
      rw [he]
      exact List.mem_append_right _ (List.mem_singleton_self k)
    exact List.mem_append_right _ (List.mem_flatMap.mpr
      ⟨k, hk, List.mem_cons_of_mem _ ((Stmt.declared_hoist hhoist).mem_iff.mpr hx)⟩))
  obtain ⟨k, hprogram, -, hserved⟩ := emitKernel_adds hH henv (fun _ _ _ _ => Or.inr (by simp [htuning]))
    (fun _ _ _ _ => Or.inr fun a ha e => e ▸ allocations a ha) declared h
  exact ⟨k, hprogram, hserved⟩

/-- The frame of a map, finished as the first kernel of a program that declares no variable of the host. -/
theorem frames_of_emitKernel (code : Stmt) (hH : H.Complete) (henv : setting.env = H.env)
    (hkernels : σ.program.kernels = []) (htuning : σ.program.tuning = [])
    (hallocated : ∀ a ∈ σ'.program.allocations, a.name ∈ H.memory)
    (hunknown : ∀ x ∈ σ'.program.introduced, ¬H.env.Known x) {stem : String} {whole : Stmt}
    (hwhole : whole = op.frame H.env n code)
    (h : emitKernel stem op.grid.groupCount op.grid.groupWidth whole setting σ = .ok (u, σ')) :
    ∃ k, σ'.program.kernels = [k] ∧ op.Frames H k ∧ whole.hoist = .ok k.body := by
  obtain ⟨k, hprogram, hhoist, hnum, hsize, hserved⟩ := emitKernel_served hH henv htuning hallocated hunknown h
  exact ⟨k, by rw [hprogram, hkernels]; rfl, ⟨⟨n, code, hwhole ▸ hhoist⟩, hnum, hsize, hserved⟩, hhoist⟩

/-- The code of a map by groups at a point, for a launch, made when `n` names were taken. -/
def GroupCode (op : SegOp) (setting : Setting) (pattern : List PatElem) (launch : Launch) (n : Nat) (code : Stmt) :
    Prop :=
  ∃ body scope results s s₁ s₂, s.names = n ∧
    BodyStm.groupBody { launch, span := op.span } op.stms setting s = .ok ((body, scope), s₁) ∧
    scope.groupResults op.space.indexExps (pattern.zip op.results) setting s₁ = .ok (results, s₂) ∧
      code = .block [body, results]

/-- A kernel that is made of the frame of a map by groups around the code at a point. -/
def GroupKernel (op : SegOp) (env : HostEnv) (setting : Setting) (pattern : List PatElem) (k : Kernel) : Prop :=
  ∃ n code, (op.frame env n code).hoist = .ok k.body ∧
    let found := (op.ahead env ((Launch.start op.grid.groupCount op.grid.groupWidth).run n).1.1).run (n + 4)
    op.GroupCode setting pattern found.1.1 ((found.1.1.coverByGroups op.grid.coverage op.space).run found.2).2 code

/-- The lowering of a map by groups adds one kernel, which is made of the frame of the map and the code at a point. -/
theorem frames_of_mapByGroups (hH : H.Complete) (henv : setting.env = H.env) (hlevel : op.grid.level = .group)
    (hkernels : σ.program.kernels = []) (htuning : σ.program.tuning = [])
    (hallocated : ∀ a ∈ σ'.program.allocations, a.name ∈ H.memory)
    (hunknown : ∀ x ∈ σ'.program.introduced, ¬H.env.Known x) (h : mapByGroups pattern op setting σ = .ok (u, σ')) :
    ∃ k, σ'.program.kernels = [k] ∧ op.Frames H k ∧ op.GroupKernel H.env setting pattern k := by
  simp only [mapByGroups, bind_eq_ok, lift_eq_ok, read_eq_ok] at h
  obtain ⟨start, σ₁, ⟨rfl, rfl⟩, setting, _, ⟨rfl, rfl⟩, known, σ₂, ⟨rfl, rfl⟩, nest, σ₃, ⟨rfl, rfl⟩, ⟨body, scope⟩,
    σ₄, hbody,
    results, σ₅, hresults, h⟩ := h
  obtain ⟨-, hkernels₄, htuning₄⟩ := Spares.groupBody _ _ _ hbody
  obtain ⟨-, hkernels₅, htuning₅⟩ := Spares.composable.groupResults _ _ _ _ _ _ hresults
  have ahead : op.ahead H.env = fun launch => launch.precompute setting.env op.stms := by
    unfold Segmented.ahead
    rw [hlevel, henv]
  obtain ⟨k, hk, hframes, hhoist⟩ := frames_of_emitKernel (n := σ.names) (.block [body, results]) hH henv
    ((hkernels₅.trans hkernels₄).trans hkernels) ((htuning₅.trans htuning₄).trans htuning) hallocated hunknown (by
      unfold frame
      rw [ahead, hlevel]
      rfl) h
  refine ⟨k, hk, hframes, σ.names, .block [body, results], ?_, ?_⟩
  · unfold frame
    rw [ahead, hlevel]
    exact hhoist
  · rw [ahead]
    exact ⟨body, scope, results, _, σ₄, _, rfl, hbody, hresults, rfl⟩

/-- The lowering of a map adds one kernel, which is made of the frame of the map. -/
theorem frames_of_segmented (hH : H.Complete) (henv : setting.env = H.env) (hkind : op.kind = .map)
    (hkernels : σ.program.kernels = []) (htuning : σ.program.tuning = [])
    (hallocated : ∀ a ∈ σ'.program.allocations, a.name ∈ H.memory)
    (hunknown : ∀ x ∈ σ'.program.introduced, ¬H.env.Known x) (h : segmented pattern op setting σ = .ok (u, σ')) :
    ∃ k, σ'.program.kernels = [k] ∧ op.Frames H k := by
  cases hlevel : op.grid.level with
  | thread =>
    rw [segmented, hlevel, hkind] at h
    simp only [mapByThreads, bind_eq_ok, lift_eq_ok] at h
    obtain ⟨start, σ₁, ⟨rfl, rfl⟩, nest, σ₂, ⟨rfl, rfl⟩, ⟨body, scope⟩, σ₃, hbody, results, σ₄, hresults, h⟩ := h
    obtain ⟨-, hkernels₃, htuning₃⟩ := Spares.composable.threadBody _ _ _ _ _ hbody
    obtain ⟨-, hkernels₄, htuning₄⟩ := Spares.composable.threadResults _ _ _ _ _ _ hresults
    obtain ⟨k, hk, hframes, -⟩ := frames_of_emitKernel (n := σ.names) (.block [body, results]) hH henv
      ((hkernels₄.trans hkernels₃).trans hkernels) ((htuning₄.trans htuning₃).trans htuning) hallocated hunknown (by
        unfold frame ahead
        rw [hlevel]
        rfl) h
    exact ⟨k, hk, hframes⟩
  | group =>
    rw [segmented, hlevel, hkind] at h
    obtain ⟨k, hk, hframes, -⟩ := frames_of_mapByGroups hH henv hlevel hkernels htuning hallocated hunknown h
    exact ⟨k, hk, hframes⟩

end Segmented

namespace Module
variable {m : Module} {config : Config} {p : Program} {pattern : List PatElem} {op : SegOp} {H : Surroundings}

/-- What the program of one operation introduces is no variable of the host, if the operation binds none. -/
theorem introduced_unknown (hm : m.ops = [.seg pattern op]) (hbound : ∀ x ∈ op.allNames, ¬H.env.Known x)
    (hnew : ∀ x, H.env.Known x → ¬Generated x) (hp : m.lower config = .ok p) : ∀ x ∈ p.introduced, ¬H.env.Known x := by
  intro x hx hknown
  rcases introduced_once hp hx with ⟨op', hop', hmem⟩ | ⟨hgen, -⟩
  · rw [hm, List.mem_singleton] at hop'
    subst hop'
    exact hbound x hmem hknown
  · exact hnew x hknown hgen

/-- The program of a map has one kernel, which is made of the frame of the map. -/
theorem frames_of_lower (hm : m.ops = [.seg pattern op]) (hkind : op.kind = .map) (henv : H.env = m.env)
    (hbound : ∀ x ∈ op.allNames, ¬H.env.Known x) (hnew : ∀ x, H.env.Known x → ¬Generated x) (hH : H.Complete)
    (hallocated : ∀ a ∈ p.allocations, a.name ∈ H.memory) (hp : m.lower config = .ok p) :
    ∃ k, p.kernels = [k] ∧ op.Frames H k := by
  have unknown := introduced_unknown hm hbound hnew hp
  obtain ⟨σ, hrun, rfl⟩ := m.lower_single hm hp
  exact Segmented.frames_of_segmented hH henv.symm hkind rfl rfl hallocated unknown hrun

/-- The kernel of a map by groups is made of the frame of the map and the code at a point. -/
theorem groupKernel_of_lower (hm : m.ops = [.seg pattern op]) (hkind : op.kind = .map) (hlevel : op.grid.level = .group)
    (henv : H.env = m.env) (hbound : ∀ x ∈ op.allNames, ¬H.env.Known x) (hnew : ∀ x, H.env.Known x → ¬Generated x)
    (hH : H.Complete) (hallocated : ∀ a ∈ p.allocations, a.name ∈ H.memory) (hp : m.lower config = .ok p) :
    ∃ k, p.kernels = [k] ∧ op.Frames H k ∧ op.GroupKernel H.env ⟨config, m.env⟩ pattern k := by
  have unknown := introduced_unknown hm hbound hnew hp
  obtain ⟨σ, hrun, rfl⟩ := m.lower_single hm hp
  rw [segmented, hlevel, hkind] at hrun
  exact Segmented.frames_of_mapByGroups hH henv.symm hlevel rfl rfl hallocated unknown hrun

end Module

/-! ### Hoisted frames -/

theorem Stmt.dropShared_when {c : Exp} {body : Stmt} : (Stmt.when c body).dropShared = Stmt.when c body.dropShared := by
  unfold Stmt.when
  split <;> rfl

theorem Nest.sharedArrays_wrap {nest : Nest} {body : Stmt} : (nest.wrap body).sharedArrays =
    nest.setup.flatMap Stmt.sharedArrays ++ (nest.inner body).flatMap Stmt.sharedArrays := by
  unfold Nest.wrap
  split
  · rw [Stmt.sharedArrays_block, List.flatMap_append, List.flatMap_singleton, Stmt.sharedArrays,
      Stmt.sharedArrays_block]
  · rw [Stmt.sharedArrays_block, List.flatMap_append]

section
variable {ctx : GroupContext} {stmts : List Stmt} {nest : Nest} {body : Stmt}

/-- Hoisting from statements one after another hoists from each of them. -/
theorem mimics_dropShared_block :
    Mimics ctx ctx (Stmt.block stmts).dropShared (.block (stmts.map Stmt.dropShared)) where
  exec active := by
    rw [(dropShared_block Run.writesAt ctx active stmts).1, Run.exec_block]
  trace active s := by
    rw [(dropShared_block Run.writesAt ctx active stmts).2, Run.trace_block]

theorem mimicsAll_map_dropShared (h : stmts.flatMap Stmt.sharedArrays = []) :
    MimicsAll ctx ctx (stmts.map Stmt.dropShared) stmts := by
  rw [← Stmt.dropSharedAll_eq_map]
  exact mimicsAll_dropShared (Stmt.sharedArraysAll_eq.trans h)

/-- Hoisting from a nest that shares nothing itself hoists from its body. -/
theorem mimics_wrap_dropShared (hnest : (nest.wrap .skip).sharedArrays = []) :
    Mimics ctx ctx (nest.wrap body).dropShared (nest.wrap body.dropShared) := by
  obtain ⟨hsetup, hbefore, hafter⟩ : nest.setup.flatMap Stmt.sharedArrays = [] ∧
    nest.before.flatMap Stmt.sharedArrays = [] ∧
      nest.after.flatMap Stmt.sharedArrays = [] := by
    rw [Nest.sharedArrays_wrap, Nest.inner, List.flatMap_append, List.flatMap_append] at hnest
    simp only [List.append_eq_nil_iff] at hnest
    exact ⟨hnest.1, hnest.2.1.1, hnest.2.2⟩
  have inner : MimicsAll ctx ctx ((nest.inner body).map Stmt.dropShared) (nest.inner body.dropShared) := by
    rw [Nest.inner, Nest.inner, List.map_append, List.map_append, List.map_singleton, Stmt.dropShared_when]
    exact ((mimicsAll_map_dropShared hbefore).append (.cons (.refl ctx _) .nil)).append
      (mimicsAll_map_dropShared hafter)
  unfold Nest.wrap
  split
  · refine mimics_dropShared_block.trans (.block ?_)
    rw [List.map_append, List.map_singleton, Stmt.dropShared]
    exact (mimicsAll_map_dropShared hsetup).append
      (.cons (.loop rfl (fun _ => rfl) (mimics_dropShared_block.trans (.block inner))) .nil)
  · refine mimics_dropShared_block.trans (.block ?_)
    rw [List.map_append]
    exact (mimicsAll_map_dropShared hsetup).append inner

end

namespace Segmented
variable {op : SegOp} {H : Surroundings} {d : Device} {k : Kernel} {P G g : Nat}

/-- A group that runs a hoisted kernel makes the shared arrays, and then runs the code without them. -/
theorem runGroup_of_hoisted {T : Team} (hctx : T.ctx = contextOf H d P G g) (horder : T.order = d.schedule.order G)
    (hsize : T.size = G) (hfits : Fits (G : Int)) {whole : Stmt} (hhoist : whole.hoist = .ok k.body)
    (hlengths : ∀ a ∈ k.body.sharedArrays, ∃ n : Nat, IsInt H.scope a.length n) {captured : Table Value}
    (hcaptured : k.body.Agrees captured (H.env.bindings H.host)) {s : Device.Progress} {T' : Nat → Thread → Prop}
    {R : List Write → Prop} {stmt : Stmt} (hstmt : Mimics T.ctx T.ctx whole.dropShared stmt)
    (hleads : ∀ shared, ((whole.sharedArrays.map (·.name)).Nodup → Run.Stocks T.ctx whole.sharedArrays {} shared) →
      T.Leads (fun _ th => th = {}) ⟨shared, s.global⟩ stmt T' R) :
    ∃ s', Device.runGroup { contextOf H d P G g with captured } d.schedule k.body s = .ok () s' ∧
      R (Device.groupWrites { contextOf H d P G g with captured } d.schedule k.body s) ∧
      s'.global = ((Store.ofGlobal s.global).puts
        (Device.groupWrites { contextOf H d P G g with captured } d.schedule k.body s)).global := by
  have same : Mimics { contextOf H d P G g with captured } T.ctx k.body k.body := by
    have agrees : k.body.Agrees { contextOf H d P G g with captured }.captured (H.env.bindings H.host) := hcaptured
    rw [hctx]
    exact (mimics_of_agrees agrees).symm
  have hwidth : T.ctx.groupSize.toInt.toNat = T.size := by
    rw [hctx, hsize]
    show (Int64.ofNat G).toInt.toNat = G
    rw [toInt_ofNat_of_fits hfits, Int.toNat_natCast]
  have lengths : ∀ a ∈ whole.sharedArrays, ∃ n, Run.Length T.ctx a n := by
    intro a ha
    obtain ⟨n, hn⟩ := hlengths a ((Stmt.sharedArrays_hoist hhoist).symm ▸ ha)
    obtain ⟨i, hi, hvalue⟩ := hn.evalInt
    refine ⟨n, i, by rw [hctx]; exact hi, ?_⟩
    unfold arrayLength
    rw [if_neg (by omega), hvalue, Int.toNat_natCast]
  have hne : d.schedule.order T.size ≠ [] := by
    rw [hsize, ← horder]
    exact T.order_ne_nil
  obtain ⟨-, hbody⟩ := Stmt.hoist_eq_ok.mp hhoist
  -- The declarations run first, and make the stock that the rest of the code finds.
  obtain ⟨shared, hcodes, hstocks⟩ :=
    Run.execAll_codes (s := Device.groupStart T.ctx s) hne lengths (GroupState.thread_of_replicate rfl)
  obtain ⟨t, hexec, ht, hR⟩ := hleads shared hstocks { Device.groupStart T.ctx s with shared }
    ⟨by simp [Device.groupStart, hwidth], fun t ht => GroupState.thread_of_replicate rfl t, rfl, Team.orderly_empty _ _⟩
  have horder' : T.order = d.schedule.order T.size := by rw [hsize, horder]
  rw [← hstmt.exec, horder'] at hexec
  rw [← hstmt.trace, horder'] at ht hR
  have writes : Device.groupWrites { contextOf H d P G g with captured } d.schedule k.body s =
      (Run.trace Run.writesAt T.ctx whole.dropShared (d.schedule.order T.size)
        { Device.groupStart T.ctx s with shared }).map (·.2) := by
    rw [Device.groupWrites_congr same (by rw [hctx]) d.schedule, Device.groupWrites, hwidth, hbody, Run.trace_block,
      Run.traceAll_append, Run.traceAll_codes, List.nil_append, Run.after_ok hcodes, Run.traceAll_singleton]
  rw [writes]
  refine ⟨⟨t.global, t.stats⟩, ?_, hR, ?_⟩
  · rw [Device.runGroup_congr same.exec (by rw [hctx]) d.schedule, Device.runGroup_eq, hwidth, hbody, Run.exec_block,
      Run.execAll_append, Run.execAll_singleton, Run.bind_eq_ok.mpr ⟨(), _, hcodes, hexec⟩]
    rfl
  · exact (congrArg Store.global ht.store).trans (Store.global_puts _ _)

end Segmented

end SegKernel
