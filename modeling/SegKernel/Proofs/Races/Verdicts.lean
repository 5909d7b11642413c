import SegKernel.Proofs.Execution.Launching
import SegKernel.Proofs.Races.Checking

/-! What checks for races find in a program, and what they leave as it is. The runs of all groups are
    watched without checks. If accesses of a group race, the run with checks ends with a data race; if
    none do, it ends as the run without checks does, with or without a fault. -/

namespace SegKernel.Device
open Run
variable {α β : Type}

/-- The device with or without checks for races. -/
def checking (d : Device) (checkRaces : Bool) : Device := { d with checkRaces }

/-- The wave of a thread. -/
def waveOf (d : Device) (t : Nat) : Int64 := Int64.ofNat t / max d.wave 1

/-! ### The accesses of a launch -/

/-- The accesses and the barriers of a group, from the memory that it finds on. -/
def groupEvents (ctx : GroupContext) (schedule : Schedule) (body : Stmt) (s : Progress) : List Event :=
  trace touchesAt ctx body (schedule.order ctx.groupSize.toInt.toNat) (groupStart ctx s)

/-- The accesses and the barriers of each group that runs. -/
def groupsEvents (ctx : GroupContext) (schedule : Schedule) (body : Stmt) :
    (count first : Nat) → Progress → List (List Event)
  | 0, _, _ => []
  | n + 1, g, s =>
    let group := { ctx with group := Int64.ofNat g }
    groupEvents group schedule body s ::
      following (runGroup group schedule body) s fun _ s => groupsEvents ctx schedule body n (g + 1) s

def kernelEvents (d : Device) (host : Scope) (k : Kernel) (s : Progress) : List (List Event) :=
  match d.context host s.global k with
  | .ok ctx => groupsEvents ctx d.schedule k.body ctx.numGroups.toInt.toNat 0 s
  | .error _ => []

def kernelsEvents (d : Device) (host : Scope) : List Kernel → Progress → List (List Event)
  | [], _ => []
  | k :: ks, s => kernelEvents d host k s ++ following (d.runKernel host k) s fun _ s => kernelsEvents d host ks s

/-- The accesses and the barriers of each group that runs in a program. -/
def events (d : Device) (p : Program) : List (List Event) :=
  let host : Scope := ((d.hostEnv p)[·]?)
  following (p.allocations.forM (allocate host)) { global := d.global } fun _ s => kernelsEvents d host p.kernels s

/-! ### Following a launch -/

/-- The second launch reports a race if accesses of a group race, and otherwise does what the first one
    does, which reports none. -/
structure Checks (wave : Nat → Int64) (r r' : Launch α) (events : Progress → List (List Event)) : Prop where
  found : ∀ s, (∃ es ∈ events s, Races wave es) → ∃ fault s', r' s = .error fault s' ∧ fault.IsRace
  same : ∀ s, (∀ es ∈ events s, ¬Races wave es) → r' s = r s
  calm : ∀ s fault s', r s = .error fault s' → ¬fault.IsRace

namespace Checks
variable {wave : Nat → Int64}

/-- Where no group runs, checks change nothing. -/
theorem of_calm {r : Launch α} (h : ∀ s fault s', r s = .error fault s' → ¬fault.IsRace) :
    Checks wave r r fun _ => [] :=
  ⟨by simp, fun _ _ => rfl, h⟩

theorem bind {r r' : Launch α} {q q' : α → Launch β} {events : Progress → List (List Event)}
    {events' : α → Progress → List (List Event)} (h : Checks wave r r' events)
    (h' : ∀ a, Checks wave (q a) (q' a) (events' a)) :
    Checks wave (r >>= q) (r' >>= q') fun s => events s ++ following r s events' := by
  refine ⟨fun s hraces => ?_, fun s hnone => ?_, fun s fault s' hrun => ?_⟩
  · rw [bind_apply]
    -- A race in the first part stops the run with checks there, whatever the second part would do.
    by_cases hfirst : ∃ es ∈ events s, Races wave es
    · obtain ⟨fault, s', hr', hfault⟩ := h.found s hfirst
      rw [hr']
      exact ⟨fault, s', rfl, hfault⟩
    · obtain ⟨es, hes, hraces⟩ := hraces
      have hes := (List.mem_append.mp hes).resolve_left fun hes => hfirst ⟨es, hes, hraces⟩
      rw [h.same s fun es hes hraces => hfirst ⟨es, hes, hraces⟩]
      unfold following at hes
      cases hr : r s with
      | ok a s' =>
        rw [hr] at hes
        exact (h' a).found s' ⟨es, hes, hraces⟩
      | error fault s' =>
        rw [hr] at hes
        cases hes
  · rw [List.forall_mem_append] at hnone
    rw [bind_apply, bind_apply, h.same s hnone.1]
    have hrest := hnone.2
    unfold following at hrest
    cases hr : r s with
    | ok a s' =>
      rw [hr] at hrest
      exact (h' a).same s' hrest
    | error fault s' => rfl
  · rw [bind_apply] at hrun
    cases hr : r s with
    | ok a s₁ =>
      rw [hr] at hrun
      exact (h' a).calm s₁ fault s' hrun
    | error fault' s₁ =>
      rw [hr] at hrun
      cases hrun
      exact h.calm s fault s' hr

theorem following_nil (r : Launch α) (s : Progress) : following r s (fun _ _ => ([] : List β)) = [] := by
  unfold following
  split <;> rfl

variable {ctx : GroupContext}

/-- The run of a group. -/
theorem group (hoff : ctx.checkRaces = false) (schedule : Schedule) (body : Stmt) :
    Checks (Run.waveOf ctx) (runGroup ctx schedule body) (runGroup (ctx.checking true) schedule body)
      fun s => [groupEvents ctx schedule body s] := by
  let order := schedule.order ctx.groupSize.toInt.toNat
  have follows := fun s : Progress => exec_checks hoff body order [] {} (groupStart ctx s) .start
  have checked : ∀ s, runGroup (ctx.checking true) schedule body s =
      kept (exec (ctx.checking true) body order (groupStart ctx s)) := runGroup_eq (ctx.checking true) schedule body
  refine ⟨fun s hraces => ?_, fun s hnone => ?_, fun s fault s' hrun => ?_⟩
  · obtain ⟨es, hes, hraces⟩ := hraces
    obtain rfl := List.mem_singleton.mp hes
    rcases follows s with ⟨m', hm', -⟩ | ⟨-, fault, s', hrun, hfault⟩
    · exact absurd hraces hm'.clean
    · exact ⟨fault, _, (checked s).trans (congrArg kept hrun), hfault⟩
  · rcases follows s with ⟨m', -, hrun⟩ | ⟨hraces, -⟩
    · rw [checked, runGroup_eq]
      refine (congrArg kept hrun).trans ?_
      cases exec ctx body order (groupStart ctx s) <;> rfl
    · exact absurd hraces (hnone _ List.mem_cons_self)
  · rw [runGroup_eq] at hrun
    have calm := exec_calm hoff body order (groupStart ctx s)
    revert hrun calm
    cases exec ctx body _ (groupStart ctx s) with
    | ok _ t => exact fun hrun _ => by cases hrun
    | error fault' t =>
      intro hrun calm
      cases hrun
      exact calm fault t rfl

theorem groups (hoff : ctx.checkRaces = false) (schedule : Schedule) (body : Stmt) : ∀ count first : Nat,
    Checks (Run.waveOf ctx) (runGroups ctx schedule body count first)
      (runGroups (ctx.checking true) schedule body count first) (groupsEvents ctx schedule body count first)
  | 0, _ => of_calm fun _ _ _ h => by cases h
  | n + 1, g => by
    have hgroup : ({ ctx with group := Int64.ofNat g } : GroupContext).checkRaces = false := hoff
    exact (group hgroup schedule body).bind fun _ => groups hoff schedule body n (g + 1)

/-- What runs no group comes last. -/
theorem before_calm {r r' : Launch α} {q : α → Launch β} {events : Progress → List (List Event)}
    (h : Checks wave r r' events) (h' : ∀ a s fault s', q a s = .error fault s' → ¬fault.IsRace) :
    Checks wave (r >>= q) (r' >>= q) events := by
  have := h.bind fun a => of_calm (h' a)
  simpa only [following_nil, List.append_nil] using this

end Checks

/-! ### Kernels -/

variable {d : Device} {host : Scope} {k : Kernel}

theorem peaceful_capture (host : Scope) (global : Memory) (env : Table Value) (c : Capture) :
    Peaceful (capture host global env c) := by
  cases c with
  | scalar name type =>
    unfold capture
    dsimp only
    split
    · split
      · exact .ok _
      · exact .typeMismatch _
    · exact .error (Fault.not_isRace (by simp))
  | memory name =>
    unfold capture
    dsimp only
    split
    · exact .ok _
    · exact .error (Fault.not_isRace (by simp))
  | constant name v => exact .ok _

theorem peaceful_context (d : Device) (host : Scope) (global : Memory) (k : Kernel) :
    Peaceful (d.context host global k) := by
  have captures : ∀ (cs : List Capture) (env : Table Value), Peaceful (cs.foldlM (capture host global) env) := by
    intro cs
    induction cs with
    | nil => exact fun env => .ok env
    | cons c cs ih =>
      intro env
      rw [List.foldlM_cons]
      exact (peaceful_capture host global env c).bind ih
  refine (captures k.captures {}).bind fun captured => (k.numGroups.peaceful_evalInt host).bind fun numGroups =>
    (k.groupSize.peaceful_evalInt host).bind fun groupSize => ?_
  dsimp only
  split
  · exact (Peaceful.error (Fault.not_isRace (by simp))).bind fun _ => .ok _
  · exact .ok _

/-- With checks a kernel is launched with the same but for the checks. -/
theorem context_checking (d : Device) (host : Scope) (global : Memory) (k : Kernel) (checkRaces : Bool) :
    (d.checking checkRaces).context host global k = (d.context host global k).map (·.checking checkRaces) := by
  unfold context
  simp only [bind, Except.bind, pure, Except.pure]
  cases k.captures.foldlM (capture host global) {} with
  | error fault => rfl
  | ok captured =>
    cases k.numGroups.evalInt host with
    | error fault => rfl
    | ok numGroups =>
      cases k.groupSize.evalInt host with
      | error fault => rfl
      | ok groupSize =>
        dsimp only
        split <;> rfl

theorem runKernel_eq (d : Device) (host : Scope) (k : Kernel) (s : Progress) :
    d.runKernel host k s = match d.context host s.global k with
      | .ok ctx => (do
          runGroups ctx d.schedule k.body ctx.numGroups.toInt.toNat 0
          modify fun s => { s with stats := { s.stats with kernels := s.stats.kernels + 1 } } : Launch Unit) s
      | .error fault => .error fault s := by
  refine (bind_apply (fun s : Progress => _) _ s).trans ?_
  cases d.context host s.global k <;> rfl

namespace Checks

theorem kernel (hoff : d.checkRaces = false) (host : Scope) (k : Kernel) :
    Checks d.waveOf (d.runKernel host k) ((d.checking true).runKernel host k) (d.kernelEvents host k) := by
  have launched : ∀ {s : Progress} {ctx : GroupContext}, d.context host s.global k = .ok ctx → Checks d.waveOf
      (do runGroups ctx d.schedule k.body ctx.numGroups.toInt.toNat 0
          modify fun s => { s with stats := { s.stats with kernels := s.stats.kernels + 1 } })
      (do runGroups (ctx.checking true) d.schedule k.body ctx.numGroups.toInt.toNat 0
          modify fun s => { s with stats := { s.stats with kernels := s.stats.kernels + 1 } })
      (groupsEvents ctx d.schedule k.body ctx.numGroups.toInt.toNat 0) := by
    intro s ctx hctx
    obtain ⟨hwave, hchecks⟩ : Run.waveOf ctx = d.waveOf ∧ ctx.checkRaces = d.checkRaces := by
      obtain ⟨_, _, _, -, -, -, -, -, rfl⟩ := context_eq_ok.mp hctx
      exact ⟨rfl, rfl⟩
    rw [← hwave]
    exact (groups (hchecks.trans hoff) d.schedule k.body _ 0).before_calm fun _ _ _ _ h => by cases h
  -- A launch that is refused runs no group, with checks or without.
  refine ⟨fun s hraces => ?_, fun s hnone => ?_, fun s fault s' hrun => ?_⟩
  · rw [runKernel_eq, context_checking]
    unfold kernelEvents at hraces
    cases hctx : d.context host s.global k with
    | ok ctx =>
      rw [hctx] at hraces
      exact (launched hctx).found s hraces
    | error fault =>
      rw [hctx] at hraces
      simp at hraces
  · rw [runKernel_eq, runKernel_eq, context_checking]
    unfold kernelEvents at hnone
    cases hctx : d.context host s.global k with
    | ok ctx =>
      rw [hctx] at hnone
      exact (launched hctx).same s hnone
    | error fault => rfl
  · rw [runKernel_eq] at hrun
    cases hctx : d.context host s.global k with
    | ok ctx =>
      rw [hctx] at hrun
      exact (launched hctx).calm s fault s' hrun
    | error fault' =>
      rw [hctx] at hrun
      cases hrun
      exact peaceful_context d host s.global k fault hctx

theorem kernels (hoff : d.checkRaces = false) (host : Scope) : ∀ ks : List Kernel,
    Checks d.waveOf (ks.forM (d.runKernel host)) (ks.forM ((d.checking true).runKernel host)) (d.kernelsEvents host ks)
  | [] => of_calm fun _ _ _ h => by cases h
  | k :: ks => (kernel hoff host k).bind fun _ => kernels hoff host ks

theorem allocations (wave : Nat → Int64) (host : Scope) : ∀ as : List Allocation,
    Checks wave (as.forM (allocate host)) (as.forM (allocate host)) fun _ => []
  | [] => of_calm fun _ _ _ h => by cases h
  | a :: as => by
    refine (of_calm fun s fault s' hrun => ?_).before_calm fun _ => (allocations wave host as).calm
    have peaceful := (a.length.peaceful_evalInt host).bind fun n => peaceful_arrayLength a.name n
    unfold allocate at hrun
    revert hrun peaceful
    cases a.length.evalInt host >>= arrayLength a.name with
    | ok n => exact fun hrun _ => by cases hrun
    | error fault' =>
      intro hrun peaceful
      cases hrun
      exact peaceful fault rfl

theorem program (hoff : d.checkRaces = false) (p : Program) :
    Checks d.waveOf (d.runProgram p) ((d.checking true).runProgram p) fun s =>
      following (p.allocations.forM (allocate ((d.hostEnv p)[·]?))) s fun _ s =>
        kernelsEvents d ((d.hostEnv p)[·]?) p.kernels s := by
  exact (allocations d.waveOf ((d.hostEnv p)[·]?) p.allocations).bind fun _ =>
    kernels hoff ((d.hostEnv p)[·]?) p.kernels

end Checks

/-! ### Programs -/

theorem run_of_ok {p : Program} {s : Progress} (h : d.runProgram p { global := d.global } = .ok () s) :
    d.run p = (.ok s.stats, { d with global := s.global }) := by
  unfold run
  rw [h]

theorem run_of_error {p : Program} {fault : Fault} {s : Progress}
    (h : d.runProgram p { global := d.global } = .error fault s) :
    d.run p = (.error fault, { d with global := s.global }) := by
  unfold run
  rw [h]

/-- Checks for races are exact and passive. A run with checks ends with a data race exactly if, in the run
    without checks, some group has accesses that race; and otherwise it ends with the statistics or the fault, and
    with the memory, of the run without checks. -/
theorem run_checking (d : Device) (p : Program) :
    let plain := (d.checking false).run p
    let checked := (d.checking true).run p
    ((∃ array index first second, checked.1 = .error (.dataRace array index first second)) ↔
        ∃ es ∈ (d.checking false).events p, Races d.waveOf es) ∧
      ((∀ es ∈ (d.checking false).events p, ¬Races d.waveOf es) →
        checked.1 = plain.1 ∧ checked.2.global = plain.2.global) := by
  intro plain checked
  have checks := Checks.program (d := d.checking false) rfl p
  by_cases hraces : ∃ es ∈ (d.checking false).events p, Races d.waveOf es
  · obtain ⟨fault, s, hrun, array, index, first, second, rfl⟩ := checks.found { global := d.global } hraces
    have hchecked : checked.1 = .error (.dataRace array index first second) :=
      congrArg Prod.fst (run_of_error (d := d.checking true) hrun)
    obtain ⟨es, hes, hrace⟩ := hraces
    exact ⟨⟨fun _ => ⟨es, hes, hrace⟩, fun _ => ⟨array, index, first, second, hchecked⟩⟩,
      fun hnone => absurd hrace (hnone es hes)⟩
  -- Without a race the two runs agree, and a fault that is the same is none of a race.
  · have hsame := checks.same { global := d.global } fun es hes hrace => hraces ⟨es, hes, hrace⟩
    cases hrun : (d.checking false).runProgram p { global := d.global } with
    | ok _ s =>
      have hplain : plain = _ := run_of_ok (d := d.checking false) hrun
      have hchecked : checked = _ := run_of_ok (d := d.checking true) (hsame.trans hrun)
      rw [hplain, hchecked]
      exact ⟨⟨fun ⟨_, _, _, _, h⟩ => (by cases h), fun h => absurd h hraces⟩, fun _ => ⟨rfl, rfl⟩⟩
    | error fault s =>
      have hcalm := checks.calm { global := d.global } fault s hrun
      have hplain : plain = _ := run_of_error (d := d.checking false) hrun
      have hchecked : checked = _ := run_of_error (d := d.checking true) (hsame.trans hrun)
      rw [hplain, hchecked]
      refine ⟨⟨?_, fun h => absurd h hraces⟩, fun _ => ⟨rfl, rfl⟩⟩
      rintro ⟨array, index, first, second, h⟩
      cases h
      exact absurd ⟨array, index, first, second, rfl⟩ hcalm

/-- Two threads write their ids to `xs`, each at an index. -/
def writers (index : Exp) : Program where
  kernels := [{
    name := "writers"
    body := .seq [.query .localId "t", .write ⟨"xs", .i64, .global, false⟩ index (.var "t")]
    captures := [.memory "xs"]
    numGroups := .int 1
    groupSize := .int 2
    failureTolerant := false }]

def writersDevice : Device := { wave := 1, global := ({} : Memory).insert "xs" (.zeroed .i64 2) }

/-- The threads race for one element, and each may have its own. -/
theorem writers_checking :
    (∃ array index first second,
      ((writersDevice.checking true).run (writers (.int 0))).1 = .error (.dataRace array index first second)) ∧
    ((writersDevice.checking true).run (writers (.var "t"))).1 =
      ((writersDevice.checking false).run (writers (.var "t"))).1 ∧
    ((writersDevice.checking false).run (writers (.var "t"))).1.toOption = some ⟨1, 0, 0⟩ :=
  ⟨(run_checking writersDevice (writers (.int 0))).1.mpr (by decide +kernel),
    ((run_checking writersDevice (writers (.var "t"))).2 (by decide +kernel)).1, by decide +kernel⟩

end SegKernel.Device
