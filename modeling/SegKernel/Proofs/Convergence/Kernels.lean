import SegKernel.Device.Basic
import SegKernel.Lowering.Map
import SegKernel.Proofs.Convergence.Groups
import SegKernel.Proofs.Names.Declared

/-! What kernels have in front of the bodies of operations: the constants of the launch, what is computed
    in advance, and the nests over the groups and points. Their variables tell which group works at
    which point, so they are common to its threads. -/

namespace SegKernel
open Fresh Exp

/-- The new names of uniform stems are common, and those of other stems are not. The stem of counters
    may be both. -/
structure Common.Founded (U : Common) : Prop where
  uniform : ∀ stem ∈ uniformStems, ∀ k, U (numbered stem k)
  own : ∀ stem ∈ ownStems, stem ≠ "i" → ∀ k, ¬U (numbered stem k)

/-- The common names of a kernel: new names of uniform stems, one counter, and all names that are not
    new, but those in `own`. The threads agree on none of their arrays. -/
def kernelCommon (counter : Nat) (own : Ident → Prop) : Common where
  scalar x := (∃ stem ∈ uniformStems, ∃ k, x = numbered stem k) ∨ x = numbered "i" counter ∨ (¬Generated x ∧ ¬own x)
  array _ := False
  scalar_of_array _ h := h.elim

section
variable {counter : Nat} {own : Ident → Prop}

theorem ownStems_disjoint : ∀ stem ∈ ownStems, stem ∉ uniformStems := by decide

theorem generated_of_own {stem : String} (h : stem ∈ ownStems) (k : Nat) : Generated (numbered stem k) :=
  ⟨stem, by simp [h], k, rfl⟩

theorem generated_of_uniform {stem : String} (h : stem ∈ uniformStems) (k : Nat) : Generated (numbered stem k) :=
  ⟨stem, by simp [h], k, rfl⟩

/-- Only the counter has the form of a name that each thread has for itself. -/
theorem kernelCommon_own {stem : String} (h : stem ∈ ownStems) {k : Nat} (hk : stem = "i" → k ≠ counter) :
    ¬kernelCommon counter own (numbered stem k) := by
  rintro (⟨stem', hstem', k', e⟩ | e | ⟨hgen, -⟩)
  · obtain ⟨rfl, -⟩ := numbered_inj.mp e
    exact ownStems_disjoint stem h hstem'
  · obtain ⟨hi, hc⟩ := numbered_inj.mp e
    exact hk hi hc
  · exact hgen (generated_of_own h k)

theorem kernelCommon_founded : (kernelCommon counter own).Founded where
  uniform stem hs k := Or.inl ⟨stem, hs, k, rfl⟩
  own _ hs hne _ := kernelCommon_own hs fun h => absurd h hne

theorem kernelCommon_newNames {n : Nat} (own : Ident → Prop) (h : counter < n) :
    NewNames (kernelCommon counter own) n where
  uniform stem hs k _ := Or.inl ⟨stem, hs, k, rfl⟩
  own _ hs k hk := kernelCommon_own hs fun _ => by omega

end

section
variable {n : Nat}

theorem ask_quiet {U : Common} {which : Query} {name : Ident} (h : ¬U name) : Quiet U (Launch.ask which name) := by
  refine .seq ?_
  simp only [List.forall_mem_cons, List.not_mem_nil, false_imp_iff, implies_true, and_true]
  exact ⟨.declare h, .query h⟩

theorem ask_uniform {U : Common} {which : Query} {name : Ident} (h : U name → which ≠ .globalId ∧ which ≠ .localId) :
    Uniform U (Launch.ask which name) := by
  refine .seq ?_
  simp only [List.forall_mem_cons, List.not_mem_nil, false_imp_iff, implies_true, and_true]
  exact ⟨.declare, .query h⟩

/-- The constants of a launch tell the group and the width of waves, which are common. All of them have
    new names. -/
theorem start_uniform (numGroups groupSize : Exp) :
    From n (Launch.start numGroups groupSize) fun (launch, entry) =>
      launch.numGroups = numGroups ∧ launch.groupSize = groupSize ∧ launch.numThreads = numGroups * groupSize ∧
        launch.chunkCounts = [] ∧ (∀ U : Common, U.Founded → U launch.groupId ∧ U launch.waveWidth ∧ Uniform U entry) ∧
        ∀ U : Common, (∀ x, U x → ¬Generated x) → Quiet U entry := by
  refine (From.fresh _).bind fun globalId ⟨k₁, _, e₁⟩ => ?_
  refine (From.fresh _).bind fun localId ⟨k₂, _, e₂⟩ => ?_
  refine (From.fresh _).bind fun groupId ⟨k₃, _, e₃⟩ => ?_
  refine (From.fresh _).bind fun waveWidth ⟨k₄, _, e₄⟩ =>
    .pure ⟨rfl, rfl, rfl, rfl, fun U hU => ⟨?_, ?_, .comment (.block ?_)⟩, fun U hU => .comment (.block ?_)⟩
  · exact e₃ ▸ hU.uniform _ (by decide) _
  · exact e₄ ▸ hU.uniform _ (by decide) _
  · simp only [List.forall_mem_cons, List.not_mem_nil, false_imp_iff, implies_true, and_true]
    refine ⟨ask_uniform fun h => ?_, ask_uniform fun h => ?_,
      ask_uniform fun _ => by simp, ask_uniform fun _ => by simp⟩
    · exact absurd (e₁ ▸ h) (hU.own _ (by decide) (by decide) _)
    · exact absurd (e₂ ▸ h) (hU.own _ (by decide) (by decide) _)
  · simp only [List.forall_mem_cons, List.not_mem_nil, false_imp_iff, implies_true, and_true]
    refine ⟨ask_quiet fun h => hU _ h ?_, ask_quiet fun h => hU _ h ?_, ask_quiet fun h => hU _ h ?_,
      ask_quiet fun h => hU _ h ?_⟩
    · exact e₁ ▸ generated_of_own (by decide) _
    · exact e₂ ▸ generated_of_own (by decide) _
    · exact e₃ ▸ generated_of_uniform (by decide) _
    · exact e₄ ▸ generated_of_uniform (by decide) _

/-! ### Computing in advance -/

/-- The code computes, for all threads the same, what a launch knows in advance. -/
def Precomputes (env : HostEnv) (launch : Launch) (found : Launch × List Stmt) : Prop :=
  ∀ U : Common, U.Founded → (∀ x, env.Known x → U x) → launch.Fits U →
    found.1.Fits U ∧ ∀ s ∈ found.2, Uniform U s

theorem invariant_over {env : HostEnv} {U : Common} (henv : ∀ x, env.Known x → U x) {o : Operand}
    (h : env.isInvariant o = true) : o.toExp.Over U := by
  refine Operand.over_toExp fun x hx => henv x ?_
  cases o with
  | const v => simp [Operand.vars] at hx
  | var name =>
    obtain rfl := List.mem_singleton.mp hx
    simpa [HostEnv.isInvariant, HostEnv.Known] using h

theorem precomputeStep_uniform {env : HostEnv} {launch : Launch} {found : Launch × List Stmt}
    (h : Precomputes env launch found) (stm : BodyStm) :
    From n (Launch.precomputeStep env found stm) (Precomputes env launch) := by
  obtain ⟨known, code⟩ := found
  unfold Launch.precomputeStep
  dsimp only
  -- A step adds the number of rounds of a nested space, or its indices, once for each shape.
  split
  · rename_i pattern op
    split
    · exact .pure h
    · rename_i hshape
      have hextents : ∀ U : Common, (∀ x, env.Known x → U x) → ∀ e ∈ op.space.shape.map Operand.toExp, e.Over U := by
        intro U henv e he
        obtain ⟨o, ho, rfl⟩ := List.mem_map.mp he
        have hall : op.space.shape.all env.isInvariant = true := by simpa using hshape
        exact invariant_over henv (List.all_eq_true.mp hall o ho)
      split
      · split
        · exact .pure h
        · refine (From.fresh _).bind fun count ⟨k, _, e⟩ => .pure fun U hU henv hl => ?_
          obtain ⟨hknown, hcode⟩ := h U hU henv hl
          have hcount : U count := e ▸ hU.uniform _ (by decide) _
          refine ⟨⟨hknown.groupId, hknown.wave, hknown.numGroups, hknown.groupSize, fun p hp => ?_⟩, fun s hs => ?_⟩
          · rcases List.mem_cons.mp hp with rfl | hp
            · exact over_var.mpr hcount
            · exact hknown.chunkCounts p hp
          · rcases List.mem_append.mp hs with hs | hs
            · exact hcode s hs
            · obtain rfl := List.mem_singleton.mp hs
              exact .declareInit fun _ => over_divUp (over_product (hextents U henv)) hknown.groupSize
      · split
        · exact .pure h
        · refine (From.freshFor _ _).bind fun ids hids => .pure fun U hU henv hl => ?_
          obtain ⟨hknown, hcode⟩ := h U hU henv hl
          refine ⟨⟨hknown.groupId, hknown.wave, hknown.numGroups, hknown.groupSize, hknown.chunkCounts⟩, fun s hs => ?_⟩
          rcases List.mem_append.mp hs with hs | hs
          · exact hcode s hs
          · obtain rfl := List.mem_singleton.mp hs
            refine .quiet (unflatten_quiet fun d hd => ?_)
            obtain ⟨k, _, e⟩ := hids d.1 (List.of_mem_zip hd).1
            exact e ▸ hU.own _ (by decide) (by decide) _
  · exact .pure h

theorem precompute_uniform (env : HostEnv) (launch : Launch) (stms : List BodyStm) :
    From n (Launch.precompute env launch stms) fun (known, code) => ∀ U : Common, U.Founded →
      (∀ x, env.Known x → U x) → launch.Fits U → known.Fits U ∧ Uniform U code := by
  refine (From.foldlM (Q := Precomputes env launch) ?_ fun stm _ found h => precomputeStep_uniform h stm).bind
    fun (known, code) h => .pure fun U hU henv hl => ?_
  · exact fun U _ _ hl => ⟨⟨hl.groupId, hl.wave, hl.numGroups, hl.groupSize, by simp⟩, by simp⟩
  · obtain ⟨hknown, hcode⟩ := h U hU henv hl
    refine ⟨hknown, ?_⟩
    split
    · exact .quiet .skip
    · exact .comment (.block hcode)

/-! ### Nests over groups -/

/-- The nest over logical groups and the number of a logical group are common, with a counter that is
    new or the first of all. -/
theorem coverGroups_uniform (l : Launch) (coverage : Coverage) (required : Exp) {m : Nat} (hm : 0 < m) :
    let r := (l.coverGroups coverage required).run m
    m ≤ r.2 ∧ ∃ counter < r.2, ∀ own : Ident → Prop,
      let U := kernelCommon counter own
      U l.groupId → l.numGroups.Over U → required.Over U → r.1.1.Over U ∧ GroupNest U r.1.2 := by
  have single : ∀ {U : Common}, U l.groupId → l.gid.Over U ∧ GroupNest U {} := fun h =>
    ⟨over_var.mpr h, by simp, by simp, by simp, over_const _, by simp⟩
  -- The two forms of the nest differ in no part that matters here.
  have visits : ∀ own : Ident → Prop,
      let U := kernelCommon (m + 2) own
      let physical := numbered "phys_group_id" m
      let iterations := numbered "iterations" (m + 1)
      let i := numbered "i" (m + 2)
      let logical := numbered "virt_group_id" (m + 3)
      l.numGroups.Over U → required.Over U → (Exp.var logical).Over U ∧ GroupNest U {
        setup := [Launch.ask .groupId physical,
          .declareInit iterations .i64 ((required - .var physical).divUp l.numGroups)]
        counted := some (i, .var iterations)
        before := [.declareInit logical .i64 (.var physical + .var i * l.numGroups)]
        after := [.barrier .global] } := by
    intro own U physical iterations i logical hnum hrequired
    have founded : U.Founded := kernelCommon_founded
    have hphysical : (Exp.var physical).Over U := over_var.mpr (founded.uniform _ (by decide) _)
    refine ⟨over_var.mpr (founded.uniform _ (by decide) _), ⟨?_, ?_, ?_, over_const _, ?_⟩⟩
    · simp only [List.forall_mem_cons, List.not_mem_nil, false_imp_iff, implies_true, and_true]
      exact ⟨ask_uniform fun _ => by simp, .declareInit fun _ => over_divUp (over_sub hrequired hphysical) hnum⟩
    · rintro _ _ ⟨⟩
      exact over_var.mpr (founded.uniform _ (by decide) _)
    · simp only [List.forall_mem_cons, List.not_mem_nil, false_imp_iff, implies_true, and_true]
      exact .declareInit fun _ => over_add hphysical (over_mul (over_var.mpr (Or.inr (Or.inl rfl))) hnum)
    · simpa using .barrier
  cases coverage with
  | direct => exact ⟨Nat.le_refl _, 0, hm, fun own hgroup _ _ => single hgroup⟩
  | virtualize =>
    exact ⟨show m ≤ m + 4 by omega, m + 2, show m + 2 < m + 4 by omega, fun own _ hnum hrequired => visits own hnum hrequired⟩
  | full =>
    exact ⟨show m ≤ m + 4 by omega, m + 2, show m + 2 < m + 4 by omega, fun own _ hnum hrequired => visits own hnum hrequired⟩

/-- The point of each visit is as common as the nest around it, where all names of its space are. -/
theorem atPoint_uniform {U : Common} {nest : Nest} (h : GroupNest U nest) (coverage : Coverage) {s : IterationSpace}
    (hflat : U s.flat) (hvars : ∀ x ∈ s.vars, U x) {flat : Exp} (hpoint : flat.Over U) :
    GroupNest U (Launch.atPoint nest coverage s flat) where
  setup := h.setup
  counted := h.counted
  before := by
    intro t ht
    simp only [Launch.atPoint, List.mem_append, List.mem_cons, List.not_mem_nil, or_false] at ht
    rcases ht with ht | rfl | rfl
    · exact h.before t ht
    · exact .declareInit fun _ => hpoint
    · exact unflatten_uniform (over_var.mpr hflat) (extents_over hvars)
  guard := by
    unfold Launch.atPoint
    dsimp only
    split
    · exact over_const _
    · exact over_test (over_var.mpr hflat) (size_over hvars)
  after := h.after

theorem coverByGroups_uniform (l : Launch) (coverage : Coverage) (s : IterationSpace) {m : Nat} (hm : 0 < m) :
    let r := (l.coverByGroups coverage s).run m
    m ≤ r.2 ∧ ∃ counter < r.2, ∀ own : Ident → Prop,
      let U := kernelCommon counter own
      l.Fits U → U s.flat → (∀ x ∈ s.vars, U x) → GroupNest U r.1 := by
  obtain ⟨hle, counter, hcounter, hnest⟩ := coverGroups_uniform l coverage s.size hm
  refine ⟨hle, counter, hcounter, ?_⟩
  intro own U L hflat hvars
  obtain ⟨hgroup, hgroups⟩ := hnest own L.groupId L.numGroups (size_over hvars)
  exact atPoint_uniform hgroups coverage hflat hvars hgroup

end

/-! ## Kernels that groups run together

A kernel converges if each of its barriers, in any run of it, is met by all threads of the group. -/
open Fresh Lowering

/-! ### Orders of threads -/

theorem Schedule.nodup_order (schedule : Schedule) (size : Nat) : (schedule.order size).Nodup := by
  cases schedule with
  | forward => exact List.nodup_range
  | reverse => exact List.pairwise_reverse.mpr (List.nodup_range.imp fun h => h.symm)

theorem Schedule.mem_order (schedule : Schedule) (size t : Nat) : t ∈ schedule.order size ↔ t < size := by
  cases schedule <;> simp [order]

theorem Schedule.order_ne_nil (schedule : Schedule) {size : Nat} (h : 0 < size) : schedule.order size ≠ [] :=
  List.ne_nil_of_mem ((schedule.mem_order size 0).mpr h)

/-! ### Runs of kernels -/

/-- All threads of a group meet at every barrier that the group executes, on any device and from any
    memory on which the kernel can be launched. -/
def Kernel.Converges (k : Kernel) : Prop :=
  ∀ (d : Device) (host : Scope) (global : Memory) (ctx : GroupContext), d.context host global k = .ok ctx →
    ∀ (g : Nat) (schedule : Schedule) (start : GroupState),
      start.threads = Array.replicate ctx.groupSize.toInt.toNat {} →
        ∀ mask ∈ Run.barrierMasks { ctx with group := Int64.ofNat g } k.body
          (schedule.order ctx.groupSize.toInt.toNat) start, mask = schedule.order ctx.groupSize.toInt.toNat

theorem Kernel.converges_of_leads {U V : Common} {k : Kernel} {stmt : Stmt} (h : Leads U V stmt)
    (hbody : stmt.hoist = .ok k.body) : k.Converges := by
  intro d host global ctx _ g schedule start hstart mask hmask
  rcases eq_or_ne (schedule.order ctx.groupSize.toInt.toNat) [] with hnil | hne
  · rw [hnil, Run.barrierMasks, Run.trace_nil] at hmask
    simp at hmask
  · have together : Together U (schedule.order ctx.groupSize.toInt.toNat) start :=
      together_start (schedule.nodup_order _) (schedule.mem_order _) hstart
    exact (h.hoist hbody _ _ hne start together).1 mask hmask

theorem Kernel.converges_of_uniform (U : Common) {k : Kernel} {stmt : Stmt} (u : Uniform U stmt)
    (hbody : stmt.hoist = .ok k.body) : k.Converges := converges_of_leads u.leads hbody

/-! ### Kernels that lowering emits -/

/-- The kernels that a computation adds to the program converge, where it takes new names from number
    `n` on. -/
def Emits {α : Type} (setting : Setting) (n : Nat) (f : Lowering α) (P : α → Prop) : Prop :=
  ∀ σ a σ', n ≤ σ.names → Allocated σ → f setting σ = .ok (a, σ') →
    P a ∧ σ.names ≤ σ'.names ∧ Allocated σ' ∧ ∀ k ∈ σ'.program.kernels, k ∈ σ.program.kernels ∨ k.Converges

namespace Emits
variable {α β : Type} {setting : Setting} {n : Nat} {f : Lowering α} {P : α → Prop}

theorem of_yields (h : Yields setting n f P) : Emits setting n f P := by
  intro σ a σ' hn hσ hf
  obtain ⟨hP, hle, hσ', hk⟩ := h σ a σ' hn hσ hf
  exact ⟨hP, hle, hσ', fun k hk' => Or.inl (hk ▸ hk')⟩

theorem bind {g : α → Lowering β} {Q : β → Prop} (hf : Emits setting n f P)
    (hg : ∀ a, P a → Emits setting n (g a) Q) : Emits setting n (f >>= g) Q := by
  intro σ b σ' hn hσ hb
  obtain ⟨a, σ₁, ha, hb⟩ := bind_eq_ok.mp hb
  obtain ⟨hP, hle, hσ₁, hk⟩ := hf σ a σ₁ hn hσ ha
  obtain ⟨hQ, hle', hσ', hk'⟩ := hg a hP σ₁ b σ' (Nat.le_trans hn hle) hσ₁ hb
  refine ⟨hQ, Nat.le_trans hle hle', hσ', fun k h => ?_⟩
  rcases hk' k h with h | h
  · exact hk k h
  · exact Or.inr h

/-- What follows a computation that takes names may depend on which names these are. -/
theorem lift_bind {f : Fresh α} {g : α → Lowering β} {Q : β → Prop}
    (h : ∀ m, n ≤ m → m ≤ (f.run m).2 ∧ Emits setting (f.run m).2 (g (f.run m).1) Q) :
    Emits setting n (liftM f >>= g) Q := by
  intro σ b σ' hn hσ hb
  obtain ⟨a, σ₁, ha, hb⟩ := bind_eq_ok.mp hb
  obtain ⟨rfl, rfl⟩ := lift_eq_ok.mp ha
  obtain ⟨hle, hg⟩ := h σ.names hn
  obtain ⟨hQ, hle', hσ', hk⟩ := hg { σ with names := (f.run σ.names).2 } b σ' (Nat.le_refl _) hσ hb
  exact ⟨hQ, Nat.le_trans hle hle', hσ', hk⟩

/-- What a launch starts with is common, and then some names are taken. -/
theorem start_bind {numGroups groupSize : Exp} {g : Launch × Stmt → Lowering α}
    (h : ∀ launch entry m, n ≤ m → 0 < m → launch.numGroups = numGroups → launch.groupSize = groupSize →
      launch.numThreads = numGroups * groupSize → launch.chunkCounts = [] →
      (∀ U : Common, U.Founded → U launch.groupId ∧ U launch.waveWidth ∧ Uniform U entry) →
      (∀ U : Common, (∀ x, U x → ¬Generated x) → Quiet U entry) → Emits setting m (g (launch, entry)) P) :
    Emits setting n (liftM (Launch.start numGroups groupSize) >>= g) P := by
  refine lift_bind fun m hm => ?_
  obtain ⟨⟨hnum, hsize, hthreads, hchunks, hentry, hquiet⟩, hle⟩ := start_uniform (n := n) numGroups groupSize m hm
  exact ⟨hle, h _ _ _ (Nat.le_trans hm hle) (Nat.succ_pos _) hnum hsize hthreads hchunks hentry hquiet⟩

theorem coverByGroups_bind {l : Launch} {coverage : Coverage} {s : IterationSpace} {g : Nest → Lowering α} (hn : 0 < n)
    (h : ∀ nest m counter, counter < m →
      (∀ own : Ident → Prop, l.Fits (kernelCommon counter own) → kernelCommon counter own s.flat →
        (∀ x ∈ s.vars, kernelCommon counter own x) → GroupNest (kernelCommon counter own) nest) →
      Emits setting m (g nest) P) :
    Emits setting n (liftM (l.coverByGroups coverage s) >>= g) P := by
  refine lift_bind fun m hm => ?_
  obtain ⟨hle, counter, hcounter, hnest⟩ := coverByGroups_uniform l coverage s (Nat.lt_of_lt_of_le hn hm)
  exact ⟨hle, h _ _ counter hcounter hnest⟩

theorem pure {a : α} (h : P a) : Emits setting n (Pure.pure a) P := of_yields (.pure h)

theorem forM {γ : Type} {g : γ → Lowering Unit} : ∀ {cs : List γ}, (∀ c ∈ cs, Emits setting n (g c) fun _ => True) →
    Emits setting n (cs.forM g) fun _ => True
  | [], _ => pure trivial
  | c :: _, h => (h c List.mem_cons_self).bind fun _ _ => forM fun c' hc' => h c' (List.mem_cons_of_mem c hc')

theorem mapM {g : α → Lowering β} {Q : β → Prop} : ∀ {as : List α},
    (∀ a ∈ as, Emits setting n (g a) Q) → Emits setting n (as.mapM g) fun bs => ∀ b ∈ bs, Q b
  | [], _ => by
    rw [List.mapM_nil]
    exact pure (by simp)
  | a :: as, h => by
    rw [List.mapM_cons]
    refine (h a List.mem_cons_self).bind fun b hb => ?_
    refine (mapM fun a' ha' => h a' (List.mem_cons_of_mem a ha')).bind fun bs hbs => pure fun y hy => ?_
    rcases List.mem_cons.mp hy with rfl | hy
    · exact hb
    · exact hbs y hy

end Emits

/-- The name that a capture brings into a kernel. -/
def Capture.name : Capture → Ident
  | .scalar name _ | .memory name | .constant name _ => name

theorem scalarCapture?_name {env : HostEnv} {program : Program} {name : Ident} {c : Capture}
    (h : scalarCapture? env program name = some c) : c.name = name := by
  unfold scalarCapture? at h
  split at h
  · cases h
    rfl
  · cases h
    rfl
  · split at h
    · cases h
      rfl
    · cases h

/-- A kernel captures no name that it declares. -/
theorem captures_yields {setting : Setting} {n : Nat} (kernel : String) (body : Stmt) :
    Yields setting n (captures kernel body) fun cs => ∀ c ∈ cs, c.name ∉ body.declared := by
  refine Yields.read.bind fun s _ => Yields.bind (P := fun _ => True) (.of_eq fun _ _ _ h => ?_) fun σ _ => ?_
  · exact ⟨trivial, (get_eq_ok.mp h).2⟩
  · refine (Yields.mapM (Q := fun c : Capture => c.name ∉ body.declared) fun name hname => ?_).bind
      fun scalars hscalars => ?_
    · exact Yields.require.imp fun c hc => scalarCapture?_name hc ▸ name_not_declared hname
    refine (Yields.mapM (Q := fun c : Capture => c.name ∉ body.declared) fun name hname => ?_).bind
      fun memory hmemory => ?_
    · exact Yields.check.bind fun _ _ => .pure (name_not_declared hname)
    refine .pure fun c hc => ?_
    rcases List.mem_append.mp hc with hc | hc
    · exact hscalars c hc
    · exact hmemory c hc

/-- A kernel converges as soon as its body does so after hoisting, with what the kernel captures. -/
theorem emitKernel_emits {setting : Setting} {n : Nat} (stem : String) (numGroups groupSize : Exp) {body : Stmt}
    (h : ∀ k : Kernel, body.hoist = .ok k.body → (∀ c ∈ k.captures, c.name ∉ k.body.declared) → k.Converges) :
    Emits setting n (emitKernel stem numGroups groupSize body) fun _ => True := by
  intro σ u σ' _ hσ hu
  obtain ⟨k, -, -, -, hbody, hcs, rfl⟩ := emitKernel_eq_ok hu
  have hcaptures := (captures_yields (n := 0) _ _ { σ with names := σ.names + 1 } _ _ (Nat.zero_le _) hσ hcs).1
  refine ⟨trivial, Nat.le_succ _, hσ, fun k' hk' => ?_⟩
  rcases List.mem_append.mp hk' with hk' | hk'
  · exact Or.inl hk'
  · obtain rfl := List.mem_singleton.mp hk'
    exact Or.inr (h _ hbody hcaptures)

/-! ## Kernels of groups

All names that the body of a group binds are common, so its whole code is uniform, with the nests over
logical groups around it. -/
open Fresh Exp Lowering

/-- An operation whose variables are in scope on a host, with no name of the form of new ones, and
    in which nested operations bind names of their own. -/
structure HostEnv.Admits (env : HostEnv) (op : SegOp) : Prop where
  inScope : op.Scoped env.Known
  apart : BodyStm.ApartAll (scopeWith op.names env.HasName) op.stms
  names : ∀ x ∈ op.allNames, ¬Generated x
  host : ∀ x, env.HasName x → ¬Generated x

/-- The names that operations in a body bind. -/
def nestedNames (stms : List BodyStm) (x : Ident) : Prop :=
  ∃ pattern op, BodyStm.nested pattern op ∈ stms ∧ x ∈ op.names

/-- The common names of the kernel of an operation that groups run. -/
abbrev groupCommon (counter : Nat) (op : SegOp) : Common := kernelCommon counter (nestedNames op.stms)

namespace HostEnv.Admits
variable {env : HostEnv} {op : SegOp} {counter : Nat}

theorem hasName_of_known {x : Ident} (h : env.Known x) : env.HasName x := h.elim Or.inl fun h => Or.inr (Or.inl h)

theorem names_generated (h : env.Admits op) : ∀ x ∈ op.names, ¬Generated x := fun x hx =>
  h.names x (op.allNames_def ▸ List.mem_append_left _ hx)

theorem inner_generated (h : env.Admits op) {stm : BodyStm} (hstm : stm ∈ op.stms) :
    ∀ x ∈ stm.innerNames, ¬Generated x :=
  fun x hx => h.names x (op.allNames_def ▸ List.mem_append_right _ (BodyStm.mem_innerNamesAll.mpr ⟨stm, hstm, hx⟩))

theorem not_nested (h : env.Admits op) {x : Ident} (hx : x ∈ op.names ∨ env.HasName x) : ¬nestedNames op.stms x := by
  rintro ⟨pattern, inner, hmem, hin⟩
  have hapart := BodyStm.apart_of_mem h.apart _ hmem
  rw [BodyStm.Apart, Segmented.apart_def] at hapart
  exact hapart.1 x hin hx

theorem names_common (h : env.Admits op) : ∀ x ∈ op.names, groupCommon counter op x := fun x hx =>
  Or.inr (Or.inr ⟨h.names_generated x hx, h.not_nested (Or.inl hx)⟩)

theorem host_common (h : env.Admits op) : ∀ x, env.HasName x → groupCommon counter op x :=
  fun x hx => Or.inr (Or.inr ⟨h.host x hx, h.not_nested (Or.inr hx)⟩)

theorem known_common (h : env.Admits op) : ∀ x, env.Known x → groupCommon counter op x :=
  fun x hx => h.host_common x (hasName_of_known hx)

theorem groupBody (h : env.Admits op) : GroupBody (groupCommon counter op) op.stms where
  binds x hx := h.names_common x (List.mem_append_right _ hx)
  inner pattern inner hmem x hx := by
    have hgen : ¬Generated x := h.inner_generated hmem x (by
      rw [BodyStm.innerNames, Segmented.allNames_def]
      exact List.mem_append_left _ hx)
    rintro (⟨stem, hstem, k, rfl⟩ | rfl | ⟨-, hown⟩)
    · exact hgen ⟨stem, by simp [hstem], k, rfl⟩
    · exact hgen (generated_of_own (by decide) _)
    · exact hown ⟨pattern, inner, hmem, hx⟩
  arrays name type array is hmem := h.inner_generated hmem array (by simp [BodyStm.innerNames])

end HostEnv.Admits

theorem mapByGroups_emits {setting : Setting} {n : Nat} {pattern : List PatElem} {op : SegOp}
    (h : setting.env.Admits op) : Emits setting n (mapByGroups pattern op) fun _ => True := by
  obtain ⟨hvars, hstms, hresults, -⟩ := (Segmented.scoped_def op).mp h.inScope
  refine Emits.start_bind fun launch entry m _ hpos hnum hsize _ hchunks hstart _ => ?_
  refine (Emits.of_yields Yields.read).bind fun s hs => ?_
  rw [hs]
  refine (Emits.of_yields (Yields.lift (precompute_uniform _ launch op.stms))).bind
    fun (known, precomputed) hknown => ?_
  refine Emits.coverByGroups_bind hpos fun nest m' counter hcounter hnest => ?_
  -- All names of the operation and of the host are common, but not those of operations inside it.
  have founded : (groupCommon counter op).Founded := kernelCommon_founded
  have N := kernelCommon_newNames (nestedNames op.stms) hcounter
  have hgrid : ∀ x ∈ op.grid.vars ++ op.space.vars, groupCommon counter op x := fun x hx =>
    h.known_common x (hvars x (List.mem_append_left _ hx))
  obtain ⟨hgroup, hwave, hentry⟩ := hstart _ founded
  have L : launch.Fits (groupCommon counter op) := by
    refine ⟨hgroup, hwave, hnum ▸ Operand.over_toExp fun x hx => ?_, hsize ▸ Operand.over_toExp fun x hx => ?_, ?_⟩
    · exact hgrid x (List.mem_append_left _ (List.mem_append_left _ hx))
    · exact hgrid x (List.mem_append_left _ (List.mem_append_right _ hx))
    · simp [hchunks]
  obtain ⟨L', hprecomputed⟩ := hknown _ founded h.known_common L
  have hspace : ∀ x ∈ op.space.names, groupCommon counter op x := fun x hx =>
    h.names_common x (List.mem_append_left _ hx)
  have covers := hnest _ L' (hspace _ List.mem_cons_self) fun x hx => hgrid x (List.mem_append_right _ hx)
  have S : BodyScope.Fits (groupCommon counter op) (scopeWith op.space.names setting.env.Known)
      { launch := known, span := op.span } := ⟨L', by simp [BodyScope.kernelArray?], by simp [BodyScope.kernelArray?],
        by simp [BodyScope.kernelArray?]⟩
  have hbound : ∀ x, scopeWith op.space.names setting.env.Known x → groupCommon counter op x := by
    rintro x (hx | hx)
    · exact hspace x hx
    · exact h.known_common x hx
  refine (Emits.of_yields (groupBody_leads N S hbound h.host_common h.groupBody hstms)).bind
    fun (body, inner) ⟨V, hV, hbody, bound, S'⟩ => ?_
  refine (Emits.of_yields (groupResults_uniform (N.of_scalar hV) S' op.space.indexExps fun r hr x hx => ?_)).bind
    fun results hres => ?_
  · refine hV ▸ (hresults r.2 (List.of_mem_zip hr).2 x hx).elim (h.names_common x) (h.known_common x)
  · refine emitKernel_emits _ _ _ fun k hk _ => ?_
    have visit : LeadsAll (groupCommon counter op) (groupCommon counter op) [body, results] :=
      .cons hbody (.singleton (hres.leads.mono (Common.withoutArrays_le rfl) ⟨fun x hx => hV ▸ hx, fun _ hx => hx⟩))
    have whole : LeadsAll (groupCommon counter op) (groupCommon counter op)
        [entry, precomputed, nest.wrap (.block [body, results])] :=
      .cons hentry.leads (.cons hprecomputed.leads (.singleton (.wrap covers (.block visit))))
    exact Kernel.converges_of_leads (.block whole) hk

end SegKernel
