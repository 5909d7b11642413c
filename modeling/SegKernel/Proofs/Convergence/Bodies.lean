import SegKernel.Lowering.Buckets
import SegKernel.Lowering.Results
import SegKernel.Proofs.Convergence.Collectives
import SegKernel.Proofs.Lowering.Yields

/-! The code of bodies. What a single thread does at its own point is quiet; what stands in the body of
    a group is uniform, if its variables are. -/

namespace SegKernel
open Fresh Exp Lowering

/-! ### Nests -/

section
variable {U : Common} {n : Nat} {l : Launch}

/-- A nest that the whole group runs together, around code that any part of the group may run. -/
def PointNest (U : Common) (nest : Nest) : Prop := ∀ body, Quiet U body → Uniform U (nest.wrap body)

theorem coverNumbers_uniform (N : NewNames U n) (L : l.Fits U) {k : Exp} (hk : k.Over U) :
    From n (l.coverNumbers k) fun (_, nest) => PointNest U nest := by
  unfold Launch.coverNumbers
  split
  · exact .pure fun body hbody => .wrap (by simp) (by simp) (by simp) (by simp) (.quiet (.when hbody))
  · refine (N.fresh_uniform (by decide)).bind fun chunks hchunks => ?_
    refine (N.fresh_uniform (by decide)).bind fun chunk hchunk => ?_
    refine (N.fresh_own (by decide)).bind fun i hi => .pure fun body hbody => ?_
    refine .wrap ?_ ?_ ?_ (by simp) (.quiet (.when hbody))
    · simpa using .declareInit fun _ => over_divUp hk L.groupSize
    · rintro _ _ ⟨⟩
      exact over_var.mpr hchunks
    · simpa using .quiet (.declareInit hi)

theorem innerIndices_quiet {flat : Exp} : ∀ {dims : List (Ident × Exp)}, (∀ d ∈ dims, ¬U d.1) →
    ∀ s ∈ Stmt.innerIndices flat dims, Quiet U s
  | [], _ => by simp [Stmt.innerIndices]
  | d :: dims, h => by
    intro s hs
    rw [Stmt.innerIndices] at hs
    rcases List.mem_cons.mp hs with rfl | hs
    · exact .declareInit (h d List.mem_cons_self)
    · exact innerIndices_quiet (fun e he => h e (List.mem_cons_of_mem d he)) s hs

theorem unflatten_quiet {dims : List (Ident × Exp)} {flat : Exp} (h : ∀ d ∈ dims, ¬U d.1) :
    Quiet U (.unflatten dims flat) := by
  unfold Stmt.unflatten
  split
  · exact .skip
  · rename_i name extent dims
    refine .block fun s hs => ?_
    rcases List.mem_cons.mp hs with rfl | hs
    · exact .declareInit (h _ List.mem_cons_self)
    · exact innerIndices_quiet (fun e he => h e (List.mem_cons_of_mem _ he)) s hs

theorem innerIndices_uniform {flat : Exp} (hflat : flat.Over U) :
    ∀ {dims : List (Ident × Exp)}, (∀ d ∈ dims, d.2.Over U) → ∀ s ∈ Stmt.innerIndices flat dims, Uniform U s
  | [], _ => by simp [Stmt.innerIndices]
  | d :: dims, h => by
    have hrest : ∀ e ∈ dims, e.2.Over U := fun e he => h e (List.mem_cons_of_mem d he)
    intro s hs
    rw [Stmt.innerIndices] at hs
    rcases List.mem_cons.mp hs with rfl | hs
    · refine .declareInit fun _ => over_apply (over_div hflat (over_product ?_)) (h d List.mem_cons_self)
      simpa using fun _ e he => hrest _ he
    · exact innerIndices_uniform hflat hrest s hs

theorem unflatten_uniform {dims : List (Ident × Exp)} {flat : Exp} (hflat : flat.Over U)
    (h : ∀ d ∈ dims, d.2.Over U) : Uniform U (.unflatten dims flat) := by
  unfold Stmt.unflatten
  split
  · exact .quiet .skip
  · rename_i name extent dims
    have hrest : ∀ e ∈ dims, e.2.Over U := fun e he => h e (List.mem_cons_of_mem _ he)
    refine .block fun s hs => ?_
    rcases List.mem_cons.mp hs with rfl | hs
    · refine .declareInit fun _ => over_div hflat (over_product ?_)
      simpa using fun _ e he => hrest _ he
    · exact innerIndices_uniform hflat hrest s hs

theorem extents_names {s : IterationSpace} (h : ∀ x ∈ s.names, ¬U x) : ∀ d ∈ s.extents, ¬U d.1 := by
  intro d hd
  obtain ⟨p, hp, rfl⟩ := List.mem_map.mp hd
  exact h _ (List.mem_cons_of_mem _ (List.mem_map_of_mem hp))

theorem extents_over {s : IterationSpace} (h : ∀ x ∈ s.vars, U x) : ∀ d ∈ s.extents, d.2.Over U := by
  intro d hd
  obtain ⟨p, hp, rfl⟩ := List.mem_map.mp hd
  exact Operand.over_toExp fun x hx => h x (List.mem_flatMap.mpr ⟨p, hp, hx⟩)

theorem dimExps_over {s : IterationSpace} (h : ∀ x ∈ s.vars, U x) : ∀ e ∈ s.dimExps, e.Over U := by
  intro e he
  obtain ⟨p, hp, rfl⟩ := List.mem_map.mp he
  exact Operand.over_toExp fun x hx => h x (List.mem_flatMap.mpr ⟨p, hp, hx⟩)

theorem size_over {s : IterationSpace} (h : ∀ x ∈ s.vars, U x) : s.size.Over U := over_product (dimExps_over h)

theorem coverSpace_uniform (N : NewNames U n) (L : l.Fits U) (coverage : Coverage) {s : IterationSpace}
    (hnames : ∀ x ∈ s.names, ¬U x) (hvars : ∀ x ∈ s.vars, U x) :
    From n (l.coverSpace coverage s) (PointNest U) := by
  have hflat : ∀ e, Uniform U (.declareInit s.flat .i64 e) := fun e =>
    .quiet (.declareInit (hnames _ List.mem_cons_self))
  have hunflatten : ∀ e, Uniform U (.unflatten s.extents e) := fun e => .quiet (unflatten_quiet (extents_names hnames))
  unfold Launch.coverSpace
  dsimp only
  split
  · refine (N.fresh_uniform (by decide)).bind fun chunk hchunk => ?_
    refine (N.fresh_own (by decide)).bind fun i hi => ?_
    -- With more points than threads, each thread takes one point in each turn of a loop. All make as many turns.
    have wraps : ∀ setup count, (∀ s ∈ setup, Uniform U s) → count.Over U → PointNest U {
        setup
        counted := some (chunk, count)
        before := [.declareInit i .i64 (.var chunk * l.groupSize + l.ltid), .declareInit s.flat .i64 (.var i),
          .unflatten s.extents (.var i)]
        guard := s.isInside } := by
      intro setup count hsetup hcount body hbody
      refine .wrap hsetup ?_ ?_ (by simp) (.quiet (.when hbody))
      · rintro _ _ ⟨⟩
        exact hcount
      · simp only [List.forall_mem_cons, List.not_mem_nil, false_imp_iff, implies_true, and_true]
        exact ⟨.quiet (.declareInit hi), hflat _, hunflatten _⟩
    split
    · rename_i count hcount
      refine .pure (wraps _ _ (by simp) ?_)
      obtain ⟨p, hp, rfl⟩ := Option.map_eq_some_iff.mp hcount
      exact L.chunkCounts p (List.mem_of_find?_eq_some hp)
    · refine (N.fresh_uniform (by decide)).bind fun count hcount => .pure (wraps _ _ ?_ (over_var.mpr hcount))
      simpa using .declareInit fun _ => over_divUp (size_over hvars) L.groupSize
  · refine .pure fun body hbody => .wrap (by simp) (by simp) ?_ (by simp) (.quiet (.when hbody))
    simp only [List.forall_mem_cons, List.not_mem_nil, false_imp_iff, implies_true, and_true]
    exact ⟨hflat _, hunflatten _⟩
  · refine .pure fun body hbody => .wrap (by simp) (by simp) ?_ (by simp) (.quiet (.when hbody))
    simp only [List.forall_mem_cons, List.not_mem_nil, false_imp_iff, implies_true, and_true]
    refine ⟨hflat _, ?_⟩
    split
    · refine .block fun s' hs' => ?_
      obtain ⟨⟨x, id⟩, hmem, rfl⟩ := List.mem_map.mp hs'
      exact .quiet (.declareInit (hnames _ (List.mem_cons_of_mem _ (List.of_mem_zip hmem).1)))
    · exact hunflatten _

end

/-! ### What threads do at their points -/

section
variable {U : Common} {setting : Setting} {n : Nat}

/-- Storing into an array is quiet. -/
def ArrayInfo.Quiet (U : Common) (a : ArrayInfo) : Prop := a.view.space = .thread → ¬U.array a.view.array

theorem moveElement_quiet {source dest : ArrayInfo} (hdest : dest.Quiet U) {v : Ident} (hv : ¬U v) (i j : Exp) :
    Quiet U (source.moveElement dest v i j) := by
  refine .block ?_
  simp only [List.forall_mem_cons, List.not_mem_nil, false_imp_iff, implies_true, and_true]
  exact ⟨.declare hv, .read hv, .write hdest⟩

theorem store_quiet (N : NewNames U n) (scope : BodyScope) {dest : ArrayInfo} (hdest : dest.Quiet U)
    (indices : List Exp) (value : Operand) : Yields setting n (scope.store dest indices value) (Quiet U) := by
  refine Yields.check.bind fun _ _ => ?_
  split
  · refine (Yields.lift (N.fresh_own (by decide))).bind fun j hj => ?_
    refine (Yields.lift (N.fresh_own (by decide))).bind fun v hv => .pure ?_
    exact .loop hj (moveElement_quiet hdest hv _ _)
  · exact .pure (.write hdest)

theorem array?_quiet {scope : BodyScope} {name : Ident} (h : ∀ a ∈ scope.kernelArray? name, a.Quiet U) :
    Yields setting n (scope.array? name) fun a? => ∀ a ∈ a?, a.Quiet U := by
  unfold BodyScope.array?
  split
  · rename_i a ha
    exact .pure fun b hb => h b (by rw [ha]; exact hb)
  · refine Yields.globalArray?.imp fun a? h a ha hspace => ?_
    rw [(h a ha).1] at hspace
    cases hspace

theorem array_quiet {scope : BodyScope} {name : Ident} (h : ∀ a ∈ scope.kernelArray? name, a.Quiet U) :
    Yields setting n (scope.array name) (·.Quiet U) := by
  refine (array?_quiet h).bind fun a? ha? => ?_
  exact Yields.require.imp fun a ha => ha? a ha

theorem threadResult_quiet (N : NewNames U n) {scope : BodyScope} (space : IterationSpace) {name : Ident}
    (h : ∀ a ∈ scope.kernelArray? name, a.Quiet U) (result : BodyResult) :
    Yields setting n (scope.threadResult space name result) (Quiet U) := by
  refine (array_quiet h).bind fun dest hdest => ?_
  cases result with
  | returns value => exact store_quiet N scope hdest _ _
  | tile => exact .limitation
  | write shape writes =>
    refine Yields.markScatter.bind fun _ _ => ?_
    refine (Yields.mapM fun w _ => ?_).bind fun code hcode => .pure (.block hcode)
    exact Yields.check.bind fun _ _ => .pure (.when (.write hdest))
  | concat split perThread array =>
    refine Yields.bind (P := fun _ => True) ?_ fun source _ => ?_
    · refine Yields.bind (P := fun _ => True) ?_ fun a? _ => Yields.require.imp fun _ _ => trivial
      unfold BodyScope.array?
      split
      · exact .pure trivial
      · exact Yields.globalArray?.imp fun _ _ => trivial
    · refine (Yields.lift (N.fresh_own (by decide))).bind fun j hj => ?_
      refine (Yields.lift (N.fresh_own (by decide))).bind fun v hv => .pure ?_
      exact .loop hj (.when (moveElement_quiet hdest hv _ _))

theorem threadResults_quiet (N : NewNames U n) {scope : BodyScope} (space : IterationSpace) {results : BoundResults}
    (h : ∀ p ∈ results, ∀ a ∈ scope.kernelArray? p.1.name, a.Quiet U) :
    Yields setting n (scope.threadResults space results) (Quiet U) := by
  refine (Yields.mapM (Q := Quiet U) ?_).bind fun code hcode => .pure (.block hcode)
  rintro ⟨p, result⟩ hmem
  exact threadResult_quiet N space (h _ hmem) result

/-- Reading an element of an array in a body is quiet, if its variable is. -/
theorem readCode_quiet (scope : BodyScope) {name : Ident} (hname : ¬U name) (type : ScalarType) (array : Ident)
    (index : List Exp) : Yields setting n (BodyStm.readCode scope name type array index) (Quiet U) := by
  refine Yields.bind (P := fun _ => True) ?_ fun a _ => ?_
  · refine Yields.bind (P := fun _ => True) ?_ fun a? _ => Yields.require.imp fun _ _ => trivial
    unfold BodyScope.array?
    split
    · exact .pure trivial
    · exact Yields.globalArray?.imp fun _ _ => trivial
  · refine Yields.check.bind fun _ _ => Yields.check.bind fun _ _ => Yields.read.bind fun s _ => .pure (.block ?_)
    simp only [List.forall_mem_cons, List.not_mem_nil, false_imp_iff, implies_true, and_true]
    refine ⟨.declare hname, ?_⟩
    split
    · exact .when (.read hname)
    · exact .read hname

theorem arrayCode_quiet {name : Ident} (hname : ¬U name) (type : ScalarType) (elems : List Operand) :
    Quiet U (BodyStm.arrayCode name type elems).1 := by
  refine .block fun s hs => ?_
  rcases List.mem_cons.mp hs with rfl | hs
  · exact .declareArray fun _ => U.not_array hname
  · obtain ⟨i, hi, rfl⟩ := List.mem_mapIdx.mp hs
    exact .write fun _ => U.not_array hname

/-- An array of `inner` is one of `outer`, or its name is one of `names`. -/
def AddsArrays (names : List Ident) (outer inner : BodyScope) : Prop :=
  ∀ name a, inner.kernelArray? name = some a →
    outer.kernelArray? name = some a ∨ (name ∈ names ∧ a.view.array = name)

theorem addsArrays_refl (names : List Ident) (scope : BodyScope) : AddsArrays names scope scope :=
  fun _ _ h => Or.inl h

theorem AddsArrays.trans {names names' : List Ident} {a b c : BodyScope} (h₁ : AddsArrays names a b)
    (h₂ : AddsArrays names' b c) : AddsArrays (names ++ names') a c := by
  intro name x hx
  rcases h₂ name x hx with h | ⟨h, e⟩
  · rcases h₁ name x h with h | ⟨h, e⟩
    · exact Or.inl h
    · exact Or.inr ⟨List.mem_append_left _ h, e⟩
  · exact Or.inr ⟨List.mem_append_right _ h, e⟩

/-- An array of a scope is one of those that were added last, or an earlier one of another name. -/
theorem kernelArray?_addArrays {scope : BodyScope} {arrays : List (Ident × ArrayInfo)} {name : Ident} {a : ArrayInfo}
    (h : (scope.addArrays arrays).kernelArray? name = some a) :
    (name, a) ∈ arrays ∨ (∀ p ∈ arrays, p.1 ≠ name) ∧ scope.kernelArray? name = some a := by
  obtain ⟨p, hp, rfl⟩ := Option.map_eq_some_iff.mp h
  simp only [BodyScope.addArrays, List.find?_append, Option.or_eq_some_iff] at hp
  rcases hp with hp | ⟨hnone, hp⟩
  · have hname := List.find?_some hp
    rw [beq_iff_eq] at hname
    exact Or.inl (hname ▸ List.mem_reverse.mp (List.mem_of_find?_eq_some hp))
  · refine Or.inr ⟨fun q hq hname => ?_, Option.map_eq_some_iff.mpr ⟨p, hp, rfl⟩⟩
    exact List.find?_eq_none.mp hnone q (List.mem_reverse.mpr hq) (beq_iff_eq.mpr hname)

theorem addsArrays_addArrays {scope : BodyScope} {arrays : List (Ident × ArrayInfo)}
    (h : ∀ p ∈ arrays, p.2.view.array = p.1) :
    AddsArrays (arrays.map (·.1)) scope (scope.addArrays arrays) := by
  intro name a ha
  rcases kernelArray?_addArrays ha with hmem | ⟨-, ha⟩
  · exact Or.inr ⟨List.mem_map_of_mem hmem, h _ hmem⟩
  · exact Or.inl ha

/-- The code of a statement that each thread runs on its own is quiet, if the names that it binds are. -/
theorem code_quiet {scope : BodyScope} {stm : BodyStm} (hstm : ∀ x ∈ stm.binds, ¬U x) :
    Yields setting n (stm.code BodyStm.noNested scope) fun (code, inner) =>
      Quiet U code ∧ inner.launch = scope.launch ∧ AddsArrays stm.binds scope inner := by
  cases stm with
  | compute name type value =>
    exact .pure ⟨.declareInit (hstm name (List.mem_singleton_self name)), rfl, addsArrays_refl _ _⟩
  | index name type array is =>
    exact (readCode_quiet scope (hstm name (List.mem_singleton_self name)) _ _ _).bind fun code hcode =>
      .pure ⟨hcode, rfl, addsArrays_refl _ _⟩
  | arrayLit name type elems =>
    refine .pure ⟨arrayCode_quiet (hstm name (List.mem_singleton_self name)) _ _, rfl, ?_⟩
    exact addsArrays_addArrays (by simp)
  | nested pattern op => exact .defect

/-- The code of a body that each thread runs on its own is quiet, if the names that it binds are. -/
theorem codeAll_quiet : ∀ {scope : BodyScope} {stms : List BodyStm}, (∀ x ∈ stms.flatMap BodyStm.binds, ¬U x) →
    Yields setting n (BodyStm.codeAll BodyStm.noNested scope stms) fun (code, inner) =>
      (∀ s ∈ code, Quiet U s) ∧ inner.launch = scope.launch ∧ AddsArrays (stms.flatMap BodyStm.binds) scope inner
  | scope, [], _ => .pure ⟨by simp, rfl, addsArrays_refl _ _⟩
  | scope, stm :: stms, h => by
    have hstm : ∀ x ∈ stm.binds, ¬U x := fun x hx => h x (by rw [List.flatMap_cons]; exact List.mem_append_left _ hx)
    have hstms : ∀ x ∈ stms.flatMap BodyStm.binds, ¬U x := fun x hx =>
      h x (by rw [List.flatMap_cons]; exact List.mem_append_right _ hx)
    refine (code_quiet hstm).bind fun (code, mid) ⟨hcode, hlaunch, hmid⟩ => ?_
    refine (codeAll_quiet hstms).bind fun (rest, inner) ⟨hrest, hlaunch', hinner⟩ => .pure ⟨?_, ?_, ?_⟩
    · intro s hs
      rcases List.mem_cons.mp hs with rfl | hs
      · exact hcode
      · exact hrest s hs
    · exact hlaunch'.trans hlaunch
    · rw [List.flatMap_cons]
      exact hmid.trans hinner

theorem threadBody_quiet {scope : BodyScope} {stms : List BodyStm} (h : ∀ x ∈ stms.flatMap BodyStm.binds, ¬U x) :
    Yields setting n (BodyStm.threadBody scope stms) fun (code, inner) =>
      Quiet U code ∧ inner.launch = scope.launch ∧ AddsArrays (stms.flatMap BodyStm.binds) scope inner :=
  (codeAll_quiet h).bind fun _ ⟨hcode, hlaunch, hinner⟩ => .pure ⟨.block hcode, hlaunch, hinner⟩

end

/-! ## Concurrent updates

Concurrent updates are quiet: each thread retries on its own until its update is done. -/
open Fresh Lowering

/-- Whatever names are taken from number `n` on, a result, if there is one, satisfies `P`. -/
def Fresh.FromExcept {α : Type} (n : Nat) (f : ExceptT LowerError Fresh α) (P : α → Prop) : Prop :=
  From n f.run fun r => ∀ a, r = .ok a → P a

namespace Fresh.FromExcept
variable {α β : Type} {n : Nat} {P : α → Prop}

theorem pure {a : α} (h : P a) : FromExcept n (Pure.pure a) P := From.pure fun b hb => by
  cases hb
  exact h

theorem throw {e : LowerError} : FromExcept n (throw e : ExceptT LowerError Fresh α) P := From.pure fun b hb => by
  cases hb

theorem bind {f : ExceptT LowerError Fresh α} {g : α → ExceptT LowerError Fresh β} {Q : β → Prop}
    (hf : FromExcept n f P) (hg : ∀ a, P a → FromExcept n (g a) Q) : FromExcept n (f >>= g) Q := by
  unfold FromExcept
  rw [ExceptT.run_bind]
  refine From.bind hf fun r hr => ?_
  cases r with
  | ok a => exact hg a (hr a rfl)
  | error e => exact From.pure fun b hb => by cases hb

theorem lift {f : Fresh α} (h : From n f P) : FromExcept n (liftM f) P :=
  From.bind h fun a ha => From.pure fun b hb => by
    cases hb
    exact ha

theorem mapM {g : α → ExceptT LowerError Fresh β} {Q : β → Prop} : ∀ {as : List α},
    (∀ a ∈ as, FromExcept n (g a) Q) → FromExcept n (as.mapM g) fun bs => ∀ b ∈ bs, Q b
  | [], _ => by
    rw [List.mapM_nil]
    exact pure (by simp)
  | a :: as, h => by
    rw [List.mapM_cons]
    refine (h a List.mem_cons_self).bind fun b hb => ?_
    refine (mapM fun a' ha' => h a' (List.mem_cons_of_mem a ha')).bind fun bs hbs => ?_
    refine pure fun y hy => ?_
    rcases List.mem_cons.mp hy with rfl | hy
    · exact hb
    · exact hbs y hy

end Fresh.FromExcept

theorem Lowering.Yields.liftExcept {α : Type} {setting : Setting} {n : Nat} {f : ExceptT LowerError Fresh α}
    {P : α → Prop} (h : FromExcept n f P) : Yields setting n (liftM f) P := by
  intro σ a σ' hn hσ ha
  obtain ⟨hP, hle⟩ := h σ.names hn
  simp only [liftM, monadLift, MonadLift.monadLift] at ha
  split at ha
  · rename_i b names hrun
    rw [show Fresh.run f.run σ.names = (.ok b, names) from hrun] at hP hle
    cases ha
    exact ⟨hP _ rfl, hle, hσ, rfl⟩
  · cases ha

section
variable {U : Common} {n : Nat}

theorem swapLoop_quiet (N : NewNames U n) {dest : View} (hdest : dest.space ≠ .thread) (index : Exp)
    {assumed : Ident} (hassumed : ¬U assumed) (candidate : Exp) :
    From n (swapLoop dest index assumed candidate) (Quiet U) := by
  refine (N.fresh_own (by decide)).bind fun old hold => ?_
  refine (N.fresh_own (by decide)).bind fun oldBits holdBits => ?_
  refine (N.fresh_own (by decide)).bind fun runLoop hrunLoop => .pure (.block ?_)
  simp only [List.forall_mem_cons, List.not_mem_nil, false_imp_iff, implies_true, and_true]
  refine ⟨.declare hold, .read hold, .declareInit holdBits, .declare hassumed, .declareInit hrunLoop,
    .repeatWhile (.block ?_)⟩
  simp only [List.forall_mem_cons, List.not_mem_nil, false_imp_iff, implies_true, and_true]
  exact ⟨.set hassumed, .compareSwap holdBits fun h => absurd h hdest, .when (.set hrunLoop)⟩

theorem lockedUpdate_quiet (N : NewNames U n) {locking : Locking} (hlocks : locking.locks.space ≠ .thread)
    (lambda : Lambda) {dests : List View} (hdests : ∀ d ∈ dests, d.space ≠ .thread) (index : Exp)
    (values : List Exp) : From n (lockedUpdate locking lambda dests index values) (Quiet U) := by
  refine (N.fresh_own (by decide)).bind fun continues hcontinues => ?_
  refine (N.fresh_own (by decide)).bind fun old hold => ?_
  refine (N.fresh_own (by decide)).bind fun released hreleased => ?_
  refine (N.freshFor_own (by decide) _).bind fun accs haccs => .pure (.block ?_)
  have hdests' : ∀ d ∈ dests.map (fun d : View => { d with volatile := true }), d.space ≠ .thread := by
    intro d hd
    obtain ⟨d', hd', rfl⟩ := List.mem_map.mp hd
    exact hdests d' hd'
  simp only [List.forall_mem_cons, List.not_mem_nil, false_imp_iff, implies_true, and_true]
  refine ⟨.declareInit hcontinues, .declare hold, .repeatWhile (.block ?_)⟩
  simp only [List.forall_mem_cons, List.not_mem_nil, false_imp_iff, implies_true, and_true]
  refine ⟨.compareSwap hold fun h => absurd h hlocks, .when (.block ?_), .memFence⟩
  simp only [List.forall_mem_cons, List.not_mem_nil, false_imp_iff, implies_true, and_true]
  refine ⟨.comment (.block fun s hs => ?_), .comment (.block fun s hs => ?_), .memFence, .declare hreleased,
    .compareSwap hreleased fun h => absurd h hlocks, .set hcontinues⟩
  · obtain ⟨⟨⟨dest, param⟩, acc⟩, hmem, hs⟩ := List.mem_flatMap.mp hs
    have hacc := haccs acc (List.of_mem_zip hmem).2
    simp only [List.mem_cons, List.not_mem_nil, or_false] at hs
    rcases hs with rfl | rfl
    · exact .declare hacc
    · exact .read hacc
  · obtain ⟨⟨dest, result⟩, hmem, rfl⟩ := List.mem_map.mp hs
    exact .write fun h => absurd h (hdests' dest (List.of_mem_zip hmem).1)

theorem componentUpdate_quiet (N : NewNames U n) {dest : View} (hdest : dest.space ≠ .thread) (index value : Exp)
    (update : ComponentUpdate) : From n (update.code dest index value) (Quiet U) := by
  cases update with
  | native op =>
    refine (N.fresh_own (by decide)).bind fun old hold => .pure (.block ?_)
    simp only [List.forall_mem_cons, List.not_mem_nil, false_imp_iff, implies_true, and_true]
    exact ⟨.declare hold, .update hold fun h => absurd h hdest⟩
  | swap op =>
    refine (N.fresh_own (by decide)).bind fun assumed hassumed => ?_
    exact swapLoop_quiet N hdest _ hassumed _

theorem atomicUpdate_quiet (N : NewNames U n) (update : AtomicUpdate) (lambda : Lambda) {locking : Option Locking}
    (hlocks : ∀ l ∈ locking, l.locks.space ≠ .thread) {dests : List View} (hdests : ∀ d ∈ dests, d.space ≠ .thread)
    (index : Exp) (values : List Exp) :
    FromExcept n (update.code lambda locking dests index values) (Quiet U) := by
  unfold AtomicUpdate.code
  split
  · exact .throw
  · refine FromExcept.bind (P := Quiet U) ?_ fun code hcode => .pure (.comment hcode)
    unfold AtomicUpdate.body
    split
    · refine (FromExcept.mapM (Q := Quiet U) ?_).bind fun code hcode => .pure (.block hcode)
      rintro ⟨⟨u, dest⟩, value⟩ hmem
      exact .lift (componentUpdate_quiet N (hdests _ (List.of_mem_zip (List.of_mem_zip hmem).1).2) _ _ _)
    · refine (FromExcept.lift (N.fresh_own (by decide))).bind fun assumed hassumed => ?_
      split
      · exact .lift (swapLoop_quiet N (hdests _ (List.mem_singleton_self _)) _ hassumed _)
      · exact .throw
    · split
      · rename_i locking
        exact .lift (lockedUpdate_quiet N (hlocks _ rfl) _ hdests _ _)
      · exact .throw

/-! ### Histograms -/

variable {setting : Setting}

theorem plain_yields (result : BodyResult) (cause : Defect) (span : Option Span) :
    Yields setting n (result.plain cause span) fun v => result = .returns v := by
  unfold BodyResult.plain
  split
  · exact .pure rfl
  · exact .defect

theorem bucketCode_quiet (N : NewNames U n) (h : Histogram) (update : AtomicUpdate) {locking : Option Locking}
    (hlocks : ∀ l ∈ locking, l.locks.space ≠ .thread) {dests : List View} (hdests : ∀ d ∈ dests, d.space ≠ .thread)
    (space : IterationSpace) (span : Option Span) (bin : Exp) (values : List Exp) :
    Yields setting n (h.bucketCode update locking dests space span bin values) (Quiet U) := by
  refine Yields.bind (P := fun _ => True) (Yields.check.bind fun _ _ => Yields.inRange.bind fun _ _ => .pure trivial)
    fun coords _ => ?_
  refine (Yields.liftExcept (atomicUpdate_quiet N update _ hlocks hdests _ _)).bind fun code hcode => ?_
  exact .pure (.when hcode)

theorem updateCode_quiet (N : NewNames U n) {locking : Option Locking}
    (hlocks : ∀ l ∈ locking, l.locks.space ≠ .thread) (space : IterationSpace) (span : Option Span)
    {plain : BodyResult → Lowering Exp} (hplain : ∀ r, Yields setting n (plain r) fun _ => True) :
    ∀ {hs : List ((Histogram × AtomicUpdate) × List View)} {bins values : List BodyResult},
      (∀ h ∈ hs, ∀ d ∈ h.2, d.space ≠ .thread) →
      Yields setting n (Histogram.updateCode locking space span plain hs bins values) fun code => ∀ s ∈ code, Quiet U s
  | [], _, _, _ => by
    unfold Histogram.updateCode
    exact .pure (by simp)
  | ((h, update), dests) :: hs, [], _, _ => by
    unfold Histogram.updateCode
    exact .pure (by simp)
  | ((h, update), dests) :: hs, bin :: bins, values, hdests => by
    unfold Histogram.updateCode
    refine (hplain bin).bind fun bin' _ => Yields.inRange.bind fun _ _ => ?_
    refine (Yields.mapM fun v _ => hplain v).bind fun own _ => ?_
    refine (bucketCode_quiet N h update hlocks (hdests _ List.mem_cons_self) space span _ _).bind fun code hcode => ?_
    refine (updateCode_quiet N hlocks space span hplain
      fun h' h'mem => hdests h' (List.mem_cons_of_mem _ h'mem)).bind fun rest hrest => .pure fun s hs => ?_
    rcases List.mem_cons.mp hs with rfl | hs
    · exact hcode
    · exact hrest s hs

/-- The mapped results go to the destinations of a pattern. -/
theorem mappedResults_yields {hs : List Histogram} {pattern : List PatElem} {results : List BodyResult} :
    Yields setting n (Histogram.mappedResults hs pattern results) fun mapped => ∀ r ∈ mapped, r.1 ∈ pattern :=
  Yields.inRange.bind fun _ _ => Yields.inRange.bind fun _ _ => .pure fun _ hr =>
    List.mem_of_mem_drop (List.of_mem_zip hr).1

end
end SegKernel
