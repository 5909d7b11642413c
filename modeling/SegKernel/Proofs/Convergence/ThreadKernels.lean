import SegKernel.Lowering.Fill
import SegKernel.Lowering.Histogram
import SegKernel.Proofs.Convergence.Declared
import SegKernel.Proofs.Convergence.Kernels

/-! Kernels in which each thread runs a body of its own. Their only barriers end the visits of logical
    groups, and how many of these there are depends on the host alone. A body may bind a name that
    the host has too; a size that needs this name then has no value, and the kernel halts before its
    first visit. -/

namespace SegKernel
open Fresh Exp Lowering

/-- Names that are not new, and one name besides. -/
def Common.besides (name : Ident) : Common where
  scalar x := x = name ∨ ¬Generated x
  array _ := False
  scalar_of_array _ h := h.elim

/-- The common names of the kernel of an operation that threads run. -/
abbrev threadCommon (counter : Nat) (op : SegOp) : Common := kernelCommon counter (· ∈ op.names)

/-- A nest in which threads visit points of their own: either the whole group runs it together, or it
    halts for want of one of the given names. -/
def VisitsOrHalts (U : Common) (own : Ident → Prop) (nest : Nest) : Prop :=
  PointNest U nest ∨ ∃ name, own name ∧ ∀ body, Halts name (nest.wrap body)

section
variable {counter : Nat} {own : Ident → Prop}

theorem over_or_needs {x : Exp} {physical : Ident} (hphysical : kernelCommon counter own physical)
    (h : x.Over (Common.besides physical)) :
    x.Over (kernelCommon counter own) ∨ ∃ name ∈ x.occurrences, own name ∧ ¬Generated name := by
  by_cases hover : x.Over (kernelCommon counter own)
  · exact Or.inl hover
  · refine Or.inr ?_
    obtain ⟨name, hneeds⟩ := not_forall.mp hover
    obtain ⟨hname, hnot⟩ := Classical.not_imp.mp hneeds
    rcases h name hname with rfl | hgen
    · exact absurd hphysical hnot
    · exact ⟨name, hname, Classical.byContradiction fun hown => hnot (Or.inr (Or.inr ⟨hgen, hown⟩)), hgen⟩

theorem besides_over {name : Ident} {o : Operand} (h : ∀ x ∈ o.vars, ¬Generated x) :
    o.toExp.Over (Common.besides name) :=
  Operand.over_toExp fun x hx => Or.inr (h x hx)

/-- A quotient needs what its divisor needs, if this is no constant. -/
theorem divUp_needs {x y : Exp} (hy : y.int? = none) : ∀ name ∈ y.occurrences, name ∈ (x.divUp y).occurrences := by
  intro name hname
  have quotient : ∀ z : Exp, z / y = .binary .div z y := fun z => by
    show Exp.apply .div z y = _
    unfold Exp.apply folded? unitOperand
    simp [hy]
  unfold divUp
  rw [quotient, occurrences]
  exact List.mem_append_right _ hname

theorem int?_of_needs {o : Operand} {name : Ident} (h : name ∈ o.toExp.occurrences) : o.toExp.int? = none := by
  cases o with
  | const v => simp [Operand.toExp, occurrences] at h
  | var x => rfl

/-- Threads visit their points in a nest that the whole group runs together, unless the number of visits
    needs a name of `own`. -/
theorem atPoint_visits {nest : Nest} {U : Common} (hsetup : ∀ s ∈ nest.setup, Uniform U s)
    (hcounted : ∀ iter bound, nest.counted = some (iter, bound) → bound.Over U)
    (hbefore : ∀ s ∈ nest.before, Uniform U s) (hafter : ∀ s ∈ nest.after, Uniform U s) (coverage : Coverage)
    {s : IterationSpace} (hspace : ∀ x ∈ s.names, ¬U x) (flat : Exp) :
    PointNest U (Launch.atPoint nest coverage s flat) := by
  refine fun body hbody => .wrap hsetup hcounted (fun t ht => ?_) hafter (.quiet (.when hbody))
  simp only [Launch.atPoint, List.mem_append, List.mem_cons, List.not_mem_nil, or_false] at ht
  rcases ht with ht | rfl | rfl
  · exact hbefore t ht
  · exact .quiet (.declareInit (hspace _ List.mem_cons_self))
  · exact .quiet (unflatten_quiet (extents_names hspace))

theorem coverByThreads_visits {l : Launch} {g : Grid} (hnum : l.numGroups = g.groupCount)
    (hsize : l.groupSize = g.groupWidth) (hgrid : ∀ x ∈ g.vars, ¬Generated x) (coverage : Coverage) {s : IterationSpace}
    (hvars : ∀ x ∈ s.vars, ¬Generated x) (hnames : ∀ x ∈ s.names, ¬Generated x) {m : Nat} (hm : 0 < m) :
    let r := (l.coverByThreads coverage s).run m
    m ≤ r.2 ∧ ∃ counter < r.2, ∀ own : Ident → Prop, (∀ x ∈ s.names, own x) →
      VisitsOrHalts (kernelCommon counter own) own r.1 := by
  have hspace : ∀ (counter : Nat) (own : Ident → Prop), (∀ x ∈ s.names, own x) → ∀ x ∈ s.names,
      ¬kernelCommon counter own x := by
    rintro counter own hown x hx (⟨stem, hstem, k, rfl⟩ | rfl | ⟨-, h⟩)
    · exact hnames _ hx (generated_of_uniform hstem k)
    · exact hnames _ hx (generated_of_own (by decide) _)
    · exact h (hown x hx)
  -- With virtualization the number of visits is computed before the first one.
  have visits : ∀ own : Ident → Prop, (∀ x ∈ s.names, own x) → ∀ flat, VisitsOrHalts (kernelCommon (m + 2) own) own
      (Launch.atPoint {
        setup := [Launch.ask .groupId (numbered "phys_group_id" m), .declareInit (numbered "iterations" (m + 1)) .i64
          ((s.size.divUp l.groupSize - .var (numbered "phys_group_id" m)).divUp l.numGroups)]
        counted := some (numbered "i" (m + 2), .var (numbered "iterations" (m + 1)))
        before := [.declareInit (numbered "virt_group_id" (m + 3)) .i64
          (.var (numbered "phys_group_id" m) + .var (numbered "i" (m + 2)) * l.numGroups)]
        after := [.barrier .global] } coverage s flat) := by
    intro own hown flat
    have founded : (kernelCommon (m + 2) own).Founded := kernelCommon_founded
    have hphysical := founded.uniform "phys_group_id" (by decide) m
    have hcount : ((s.size.divUp l.groupSize - .var (numbered "phys_group_id" m)).divUp l.numGroups).Over
        (Common.besides (numbered "phys_group_id" m)) := by
      rw [hnum, hsize]
      have hgroups : g.groupCount.Over (Common.besides (numbered "phys_group_id" m)) :=
        besides_over fun x hx => hgrid x (List.mem_append_left _ hx)
      have hwidth : g.groupWidth.Over (Common.besides (numbered "phys_group_id" m)) :=
        besides_over fun x hx => hgrid x (List.mem_append_right _ hx)
      have hpoints : s.size.Over (Common.besides (numbered "phys_group_id" m)) :=
        size_over fun x hx => Or.inr (hvars x hx)
      exact over_divUp (over_sub (over_divUp hpoints hwidth) (over_var.mpr (Or.inl rfl))) hgroups
    rcases over_or_needs hphysical hcount with hover | ⟨name, hname, hown', hgen⟩
    · have hgroups : l.numGroups.Over (kernelCommon (m + 2) own) := fun x hx => hover x (by
        rw [hnum] at hx ⊢
        exact divUp_needs (int?_of_needs hx) x hx)
      refine Or.inl (atPoint_visits ?_ ?_ ?_ ?_ coverage (hspace _ own hown) flat)
      · simp only [List.forall_mem_cons, List.not_mem_nil, false_imp_iff, implies_true, and_true]
        exact ⟨ask_uniform fun _ => by simp, .declareInit fun _ => hover⟩
      · rintro _ _ ⟨⟩
        exact over_var.mpr (founded.uniform _ (by decide) _)
      · simp only [List.forall_mem_cons, List.not_mem_nil, false_imp_iff, implies_true, and_true]
        exact .declareInit fun _ => over_add (over_var.mpr hphysical)
          (over_mul (over_var.mpr (Or.inr (Or.inl rfl))) hgroups)
      · simpa using .barrier
    · have differs : ∀ stem ∈ uniformStems, ∀ k, numbered stem k ≠ name := fun stem hstem k e =>
        hgen (e ▸ generated_of_uniform hstem k)
      have strict : ((s.size.divUp l.groupSize - .var (numbered "phys_group_id" m)).divUp l.numGroups).Strict := by
        rw [hnum, hsize]
        refine .divUp (.sub (.divUp (.product fun e he => ?_) (.toExp _)) (.var _)) (.toExp _)
        obtain ⟨d, -, rfl⟩ := List.mem_map.mp he
        exact .toExp _
      refine Or.inr ⟨name, hown', fun body => Halts.wrap [_] [] rfl (fun t ht => ?_)
        (Halts.declareInit (differs _ (by decide) _) strict hname)⟩
      obtain rfl := List.mem_singleton.mp ht
      exact ask_quiet (differs _ (by decide) _)
  cases coverage with
  | direct =>
    exact ⟨Nat.le_refl _, 0, hm, fun own hown =>
      Or.inl (atPoint_visits (by simp) (by simp) (by simp) (by simp) _ (hspace _ own hown) _)⟩
  | virtualize => exact ⟨show m ≤ m + 4 by omega, m + 2, show m + 2 < m + 4 by omega, fun own hown => visits own hown _⟩
  | full => exact ⟨show m ≤ m + 4 by omega, m + 2, show m + 2 < m + 4 by omega, fun own hown => visits own hown _⟩

theorem atPoint_declares {nest : Nest} {coverage : Coverage} {s : IterationSpace} {flat : Exp} {name : Ident}
    {body : Stmt} (h : name ∈ s.names ∨ name ∈ body.declared) :
    name ∈ ((Launch.atPoint nest coverage s flat).wrap body).declared := by
  refine Stmt.mem_declared_inner ?_
  simp only [Nest.inner, Launch.atPoint, List.mem_append, List.mem_cons, List.not_mem_nil, or_false]
  rcases h with h | h
  · rcases List.mem_cons.mp h with rfl | h
    · exact ⟨_, Or.inl (Or.inl (Or.inr (Or.inl rfl))), Stmt.mem_declared_declareInit.mpr rfl⟩
    · refine ⟨_, Or.inl (Or.inl (Or.inr (Or.inr rfl))), Stmt.mem_declared_unflatten ?_⟩
      simpa [IterationSpace.extents, IterationSpace.indices] using h
  · refine ⟨_, Or.inl (Or.inr rfl), Stmt.mem_declared_when ?_ h⟩
    split
    · simp [Exp.bool, bool?]
    · simp [Exp.lt, test, int?, bool?]

theorem coverByThreads_declares {l : Launch} {coverage : Coverage} {s : IterationSpace} {m : Nat} {name : Ident}
    {body : Stmt} (h : name ∈ s.names ∨ name ∈ body.declared) :
    name ∈ (((l.coverByThreads coverage s).run m).1.wrap body).declared := atPoint_declares h

end

/-! ### Kernels -/

section
variable {setting : Setting} {n : Nat}

theorem visits_emit {U : Common} {own : Ident → Prop} (hgen : ∀ x, own x → ¬Generated x)
    {entry : Stmt} (hentry : Uniform U entry) (hquiet : ∀ V : Common, (∀ x, V x → ¬Generated x) → Quiet V entry)
    {nest : Nest} (hnest : VisitsOrHalts U own nest) {body : Stmt} (hbody : Quiet U body)
    (hdeclared : ∀ x, own x → x ∈ (nest.wrap body).declared) (stem : String) (numGroups groupSize : Exp) :
    Emits setting n (emitKernel stem numGroups groupSize (.block [entry, nest.wrap body])) fun _ => True := by
  refine emitKernel_emits _ _ _ fun k hk hcaptures => ?_
  rcases hnest with hnest | ⟨name, hname, hhalts⟩
  · refine Kernel.converges_of_uniform U (.block ?_) hk
    simp only [List.forall_mem_cons, List.not_mem_nil, false_imp_iff, implies_true, and_true]
    exact ⟨hentry, hnest body hbody⟩
  · have halts : Halts name (.block [entry, nest.wrap body]) := by
      refine Halts.block [entry] [] rfl (fun s hs => ?_) (hhalts body)
      obtain rfl := List.mem_singleton.mp hs
      exact hquiet _ fun x hx => hx ▸ hgen name hname
    refine Kernel.converges_of_halts halts hk ?_ hcaptures
    exact Stmt.mem_declared_block.mpr ⟨_, by simp, hdeclared name hname⟩

theorem coverByThreads_bind {α : Type} {l : Launch} {coverage : Coverage} {s : IterationSpace} {g : Grid}
    (hnum : l.numGroups = g.groupCount) (hsize : l.groupSize = g.groupWidth) (hgrid : ∀ x ∈ g.vars, ¬Generated x)
    (hvars : ∀ x ∈ s.vars, ¬Generated x) (hnames : ∀ x ∈ s.names, ¬Generated x) (hn : 0 < n)
    {f : Nest → Lowering α} {P : α → Prop}
    (h : ∀ nest m counter, counter < m →
      (∀ own : Ident → Prop, (∀ x ∈ s.names, own x) → VisitsOrHalts (kernelCommon counter own) own nest) →
      (∀ (name : Ident) (body : Stmt), name ∈ s.names ∨ name ∈ body.declared → name ∈ (nest.wrap body).declared) →
      Emits setting m (f nest) P) :
    Emits setting n (liftM (l.coverByThreads coverage s) >>= f) P := by
  refine Emits.lift_bind fun m hm => ?_
  obtain ⟨hle, counter, hcounter, hnest⟩ := coverByThreads_visits hnum hsize hgrid coverage hvars hnames
    (Nat.lt_of_lt_of_le hn hm)
  exact ⟨hle, h _ _ counter hcounter hnest fun _ _ => coverByThreads_declares⟩

namespace HostEnv.Admits
variable {env : HostEnv} {op : SegOp} {counter : Nat}

theorem known_generated (h : env.Admits op) :
    ∀ x, env.Known x → ¬Generated x := fun x hx => h.host x (hasName_of_known hx)

theorem grid_generated (h : env.Admits op) : ∀ x ∈ op.grid.vars, ¬Generated x := fun x hx =>
  h.known_generated x (((Segmented.scoped_def op).mp h.inScope).1 x
    (List.mem_append_left _ (List.mem_append_left _ hx)))

theorem space_generated (h : env.Admits op) : ∀ x ∈ op.space.vars, ¬Generated x := fun x hx =>
  h.known_generated x (((Segmented.scoped_def op).mp h.inScope).1 x
    (List.mem_append_left _ (List.mem_append_right _ hx)))

theorem own_names (h : env.Admits op) : ∀ x ∈ op.names, ¬threadCommon counter op x := by
  rintro x hx (⟨stem, hstem, k, rfl⟩ | rfl | ⟨-, hown⟩)
  · exact h.names_generated _ hx (generated_of_uniform hstem k)
  · exact h.names_generated _ hx (generated_of_own (by decide) _)
  · exact hown hx

end HostEnv.Admits

theorem mapByThreads_emits {pattern : List PatElem} {op : SegOp} (h : setting.env.Admits op) :
    Emits setting n (mapByThreads pattern op) fun _ => True := by
  refine Emits.start_bind fun launch entry m _ hpos hnum hsize _ _ hstart hquiet => ?_
  refine coverByThreads_bind hnum hsize h.grid_generated h.space_generated
    (fun x hx => h.names_generated x (List.mem_append_left _ hx)) hpos
      fun nest m' counter hcounter hnest hdeclares => ?_
  have N := kernelCommon_newNames (· ∈ op.names) hcounter
  have hbinds : ∀ x ∈ op.stms.flatMap BodyStm.binds, ¬threadCommon counter op x := fun x hx =>
    h.own_names x (List.mem_append_right _ hx)
  refine (Emits.of_yields ((threadBody_quiet hbinds).and (threadBody_declares _ _))).bind
    fun (body, inner) ⟨⟨hbody, _⟩, hbinds'⟩ => ?_
  refine (Emits.of_yields (threadResults_quiet N _ fun _ _ _ _ _ => id)).bind fun results hresults => ?_
  refine visits_emit h.names_generated (hstart _ kernelCommon_founded).2.2 hquiet
    (hnest (· ∈ op.names) fun x hx => List.mem_append_left _ hx) (.block ?_) (fun x hx => hdeclares x _ ?_) _ _ _
  · simp only [List.forall_mem_cons, List.not_mem_nil, false_imp_iff, implies_true, and_true]
    exact ⟨hbody, hresults⟩
  · refine (List.mem_append.mp hx).imp id fun hx => ?_
    exact Stmt.mem_declared_block.mpr ⟨body, by simp, hbinds' x hx⟩

end

/-! ## Kernels that fill arrays, and histograms

Kernels that fill arrays, which have no barriers, and kernels of histograms, which fill arrays first.
Each thread updates buckets on its own, at the points that it visits. -/

open Fresh Exp Lowering

/-- No common names. -/
def Common.none : Common where
  scalar _ := False
  array _ := False
  scalar_of_array _ := id

section
variable {setting : Setting} {n : Nat}

theorem forElements_quiet (sizes : SizeClasses) (kernel : String) (length : Exp) :
    From n (Launch.forElements sizes kernel length) fun (_, entry, _) => Quiet .none entry :=
  (start_uniform _ _).bind fun (_, _) ⟨_, _, _, _, _, hquiet⟩ => .pure (hquiet _ fun _ h => h.elim)

theorem fill_emits (kernel : String) (length : Exp) {element : Exp → Fresh Stmt}
    (h : ∀ i, From n (element i) (Quiet .none)) : Emits setting n (fill kernel length element) fun _ => True := by
  refine (Emits.of_yields Yields.read).bind fun s _ => ?_
  refine (Emits.of_yields (Yields.lift (forElements_quiet _ _ _))).bind fun (launch, entry, param) hentry => ?_
  refine (Emits.of_yields Yields.addTuning).bind fun _ _ => ?_
  refine (Emits.of_yields (Yields.lift (h launch.gtid))).bind fun body hbody => ?_
  refine emitKernel_emits _ _ _ fun k hk _ => ?_
  have all : Quiet .none (.block [entry, .when launch.active body]) := by
    refine .block ?_
    simp only [List.forall_mem_cons, List.not_mem_nil, false_imp_iff, implies_true, and_true]
    exact ⟨hentry, .when hbody⟩
  exact Kernel.converges_of_uniform _ (.quiet all) hk

theorem fillValue_emits {view : View} (hview : view.space = .global) (length value : Exp) :
    Emits setting n (fillValue view length value) fun _ => True :=
  fill_emits _ _ fun _ => .pure (.write fun h => absurd hview (by simp [h]))

theorem replicate_emits (dest : Ident) (value : Operand) : Emits setting n (replicate dest value) fun _ => True :=
  (Emits.of_yields Yields.globalArray).bind fun _ hdest => fillValue_emits hdest _ _

theorem iota_emits (dest : Ident) (start step : Operand) : Emits setting n (iota dest start step) fun _ => True :=
  (Emits.of_yields Yields.globalArray).bind fun _ hdest => fill_emits _ _ fun _ =>
    .pure (.write fun h => absurd hdest (by simp [h]))

theorem copy_emits (dest source : Ident) : Emits setting n (copy dest source) fun _ => True := by
  refine (Emits.of_yields Yields.globalArray).bind fun target htarget => ?_
  refine (Emits.of_yields Yields.globalArray).bind fun origin _ => (Emits.of_yields Yields.check).bind fun _ _ => ?_
  have fills : Emits setting n (fill "copy" target.length fun i => do
      let v ← fresh "elem"
      return .block [.declare v origin.view.type false, .read v origin.view i, .write target.view i (.var v)])
      fun _ => True := by
    refine fill_emits _ _ fun i => (From.fresh _).bind fun v _ => .pure (.block ?_)
    simp only [List.forall_mem_cons, List.not_mem_nil, false_imp_iff, implies_true, and_true]
    exact ⟨.declare id, .read id, .write fun h => absurd htarget (by simp [h])⟩
  split
  · exact (Emits.of_yields Yields.check).bind fun _ _ => fills
  · exact fills

theorem globalLocks_yields (hs : List (Histogram × AtomicUpdate)) :
    Yields setting n (globalLocks hs) fun locking => ∀ l ∈ locking, l.locks.space = .global := by
  unfold globalLocks
  split
  · exact .pure (by simp)
  · refine Yields.read.bind fun s _ => (Yields.allocate (by decide)).bind fun locks hlocks => .pure fun l hl => ?_
    obtain rfl := Option.mem_some_iff.mp hl
    exact hlocks

theorem seedGlobal_emits (p : PatElem) (initial : Ident) (span : Option Span) :
    Emits setting n (seedGlobal p initial span) fun v => v.space = .global := by
  have found : Emits setting n (do return (← globalArray p.name "seghist" span).view : Lowering View)
      fun v => v.space = .global :=
    Emits.of_yields (Yields.globalArray.bind fun a ha => .pure ha)
  unfold seedGlobal
  split
  · exact (copy_emits _ _).bind fun _ _ => found
  · exact found

theorem seedGlobals_emits (span : Option Span) : ∀ (hs : List Histogram) (pattern : List PatElem),
    Emits setting n (seedGlobals span hs pattern) fun views => ∀ vs ∈ views, ∀ v ∈ vs, v.space = .global
  | [], _ => .pure (by simp)
  | h :: hs, pattern => by
    refine (Emits.of_yields Yields.check).bind fun _ _ => (Emits.of_yields Yields.inRange).bind fun _ _ => ?_
    refine (Emits.mapM fun p _ => seedGlobal_emits p.1 p.2 span).bind fun views hviews => ?_
    refine (seedGlobals_emits span hs _).bind fun rest hrest => .pure fun vs hvs => ?_
    rcases List.mem_cons.mp hvs with rfl | hvs
    · exact hviews
    · exact hrest vs hvs

theorem histogramValue_yields (r : BodyResult) (span : Option Span) :
    Yields setting n (histogramValue span r) fun _ => True :=
  (plain_yields r _ _).bind fun _ _ => .pure trivial

/-- The kernel that updates the buckets. -/
theorem updateByThreads_emits {pattern : List PatElem} {op : SegOp} (hs : List Histogram) (h : setting.env.Admits op)
    (locking : Option Locking) (updates : List AtomicUpdate) (dests : List (List View))
    (hlocks : ∀ l ∈ locking, l.locks.space = .global) (hdests : ∀ vs ∈ dests, ∀ v ∈ vs, v.space = .global) :
    Emits setting n (updateByThreads pattern op hs locking updates dests) fun _ => True := by
  refine Emits.start_bind fun launch entry m _ hpos hnum hsize _ _ hstart hquiet => ?_
  refine coverByThreads_bind hnum hsize h.grid_generated h.space_generated
    (fun x hx => h.names_generated x (List.mem_append_left _ hx)) hpos
      fun nest m' counter hcounter hnest hdeclares => ?_
  have N := kernelCommon_newNames (· ∈ op.names) hcounter
  have hbinds : ∀ x ∈ op.stms.flatMap BodyStm.binds, ¬threadCommon counter op x := fun x hx =>
    h.own_names x (List.mem_append_right _ hx)
  refine (Emits.of_yields ((threadBody_quiet hbinds).and (threadBody_declares _ _))).bind
    fun (body, inner) ⟨⟨hbody, _⟩, hbinds'⟩ => ?_
  refine (Emits.of_yields (updateCode_quiet N (fun l hl => by simp [hlocks l hl]) _ _
    (fun r => histogramValue_yields r op.span) ?_)).bind fun contributions hcontributions => ?_
  · intro u hu v hv
    simp [hdests u.2 (List.of_mem_zip hu).2 v hv]
  refine (Emits.of_yields mappedResults_yields).bind fun results _ => ?_
  refine (Emits.of_yields (threadResults_quiet N _ fun _ _ _ _ _ => id)).bind fun mapped hmapped => ?_
  refine visits_emit h.names_generated (hstart _ kernelCommon_founded).2.2 hquiet
    (hnest (· ∈ op.names) fun x hx => List.mem_append_left _ hx) (.block fun s hs => ?_)
    (fun x hx => hdeclares x _ ?_) _ _ _
  -- What a point runs: the body, the contributions to the buckets, and the mapped results.
  · simp only [List.cons_append, List.mem_cons, List.mem_append, List.not_mem_nil, or_false] at hs
    rcases hs with rfl | hs | rfl
    · exact hbody
    · exact hcontributions s hs
    · exact hmapped
  · refine (List.mem_append.mp hx).imp id fun hx => ?_
    exact Stmt.mem_declared_block.mpr ⟨body, by simp, hbinds' x hx⟩

theorem histogramByThreads_emits {pattern : List PatElem} {op : SegOp} (hs : List Histogram)
    (h : setting.env.Admits op) :
    Emits setting n (histogramByThreads pattern op hs) fun _ => True := by
  refine (Emits.of_yields Yields.check).bind fun _ _ => (Emits.of_yields Yields.inRange).bind fun _ _ => ?_
  refine (Emits.of_yields (Yields.mapM fun r _ => histogramValue_yields r op.span)).bind fun _ _ => ?_
  refine (Emits.of_yields Yields.inRange).bind fun _ _ => ?_
  refine (Emits.of_yields (Yields.mapM fun r _ => histogramValue_yields r op.span)).bind fun _ _ => ?_
  refine (Emits.of_yields Yields.read).bind fun s _ => ?_
  refine (Emits.of_yields (globalLocks_yields _)).bind fun locking hlocks => ?_
  refine (seedGlobals_emits op.span hs pattern).bind fun dests hdests => ?_
  split
  · rename_i l
    exact (fillValue_emits (hlocks l rfl) _ _).bind fun _ _ =>
      updateByThreads_emits hs h _ _ dests hlocks hdests
  · exact updateByThreads_emits hs h none _ dests (by simp) hdests

end
end SegKernel
