import Mathlib.Data.List.Perm.Basic
import SegKernel.Device.Basic
import SegKernel.Proofs.Execution.Mimicry
import SegKernel.Proofs.Execution.Phases
import SegKernel.Proofs.Execution.Threads

/-! The launch of a kernel taken apart: what it takes from the host, its groups, and its end. -/

namespace SegKernel

namespace Device
open Run
variable {d : Device} {host : Scope} {k : Kernel} {ctx : GroupContext}

theorem context_eq_ok {global : Memory} : d.context host global k = .ok ctx ↔ ∃ captured numGroups groupSize,
    k.captures.foldlM (capture host global) {} = .ok captured ∧ k.numGroups.evalInt host = .ok numGroups ∧
      k.groupSize.evalInt host = .ok groupSize ∧ 0 ≤ numGroups.toInt ∧ 0 < groupSize.toInt ∧
        ctx = ⟨captured, 0, groupSize, numGroups, max d.wave 1, d.loopLimit, d.checkRaces⟩ := by
  unfold context
  simp only [bind, Except.bind, pure, Except.pure]
  cases k.captures.foldlM (capture host global) {} with
  | error fault => simp
  | ok captured =>
    cases k.numGroups.evalInt host with
    | error fault => simp
    | ok numGroups =>
      cases k.groupSize.evalInt host with
      | error fault => simp
      | ok groupSize =>
        -- Numbers of groups and threads are checked last.
        by_cases hsizes : numGroups.toInt < 0 ∨ groupSize.toInt ≤ 0
        · simp only [if_pos hsizes, throw, throwThe, MonadExceptOf.throw]
          constructor
          · exact fun h => by cases h
          · rintro ⟨_, _, _, h₁, h₂, h₃, hnum, hsize, -⟩
            cases h₁
            cases h₂
            cases h₃
            omega
        · simp only [if_neg hsizes, Except.ok.injEq]
          constructor
          · rintro rfl
            exact ⟨captured, numGroups, groupSize, rfl, rfl, rfl, by omega, by omega, rfl⟩
          · rintro ⟨_, _, _, rfl, rfl, rfl, -, -, rfl⟩
            rfl

theorem runKernel_eq_ok {s s' : Progress} : d.runKernel host k s = .ok () s' ↔ ∃ ctx s₁,
    d.context host s.global k = .ok ctx ∧
      runGroups ctx d.schedule k.body ctx.numGroups.toInt.toNat 0 s = .ok () s₁ ∧
        s' = { s₁ with stats := { s₁.stats with kernels := s₁.stats.kernels + 1 } } := by
  constructor
  · intro hrun
    unfold runKernel at hrun
    obtain ⟨ctx, s₀, hctx, hrest⟩ := bind_eq_ok.mp hrun
    obtain ⟨_, s₁, hgroups, hend⟩ := bind_eq_ok.mp hrest
    cases hc : d.context host s.global k with
    | error fault =>
      rw [hc] at hctx
      cases hctx
    | ok ctx' =>
      rw [hc] at hctx
      cases hctx
      exact ⟨ctx, s₁, rfl, hgroups, modify_eq_ok.mp hend⟩
  · rintro ⟨ctx, s₁, hctx, hgroups, rfl⟩
    unfold runKernel
    refine bind_eq_ok.mpr ⟨ctx, s, ?_, bind_eq_ok.mpr ⟨(), s₁, hgroups, rfl⟩⟩
    rw [hctx]

/-- The state in which a group starts. -/
def groupStart (ctx : GroupContext) (s : Progress) : GroupState :=
  { threads := Array.replicate ctx.groupSize.toInt.toNat {}, global := s.global, stats := s.stats }

/-- What a launch keeps of the run of a group. -/
def kept : EStateM.Result Fault GroupState Unit → EStateM.Result Fault Progress Unit
  | .ok _ t => .ok () ⟨t.global, t.stats⟩
  | .error fault t => .error fault ⟨t.global, t.stats⟩

theorem runGroup_eq (ctx : GroupContext) (schedule : Schedule) (body : Stmt) (s : Progress) :
    runGroup ctx schedule body s =
      kept (exec ctx body (schedule.order ctx.groupSize.toInt.toNat) (groupStart ctx s)) := by
  unfold runGroup groupStart
  dsimp only
  cases exec ctx body _ _ <;> rfl

/-- What a group does depends on what it executes. -/
theorem runGroup_congr {ctx' : GroupContext} {stmt stmt' : Stmt}
    (hexec : ∀ active, exec ctx stmt active = exec ctx' stmt' active) (hsize : ctx.groupSize = ctx'.groupSize)
    (schedule : Schedule) : runGroup ctx schedule stmt = runGroup ctx' schedule stmt' := by
  funext s
  unfold runGroup
  dsimp only
  rw [hsize, show exec ctx stmt _ _ = exec ctx' stmt' _ _ from congrFun (hexec _) _]

/-- What is collected after a launch, if it ends without a fault. -/
def following {α β : Type} (r : Launch α) (s : Progress) (rest : α → Progress → List β) : List β :=
  match r s with
  | .ok a s' => rest a s'
  | .error .. => []

/-- Where a launch ends without a fault. -/
def reached? : EStateM.Result Fault Progress Unit → Option Progress
  | .ok _ s => some s
  | .error _ _ => none

theorem eq_ok_of_reached? {r : EStateM.Result Fault Progress Unit} {s : Progress} (h : reached? r = some s) :
    r = .ok () s := by
  cases r with
  | ok _ s' => exact congrArg (EStateM.Result.ok ()) (Option.some.inj h)
  | error fault s' => cases h

end Device

/-! ## The writes of a launch

The writes of a launch, all of them, as often as they are made. Those of a group are the writes of its
threads, in some order; those of a launch are the writes of its groups, one after another. -/

/-! ### The writes of a launch -/

namespace Device
variable {ctx ctx' : GroupContext} {schedule : Schedule} {stmt stmt' body : Stmt} {m : Memory}

/-- The writes of a group, from the memory that it finds on. -/
def groupWrites (ctx : GroupContext) (schedule : Schedule) (body : Stmt) (s : Progress) : List Write :=
  (Run.trace Run.writesAt ctx body (schedule.order ctx.groupSize.toInt.toNat) (groupStart ctx s)).map (·.2)

/-- The writes of the groups `first`, `first + 1`, ..., `count` in all, each with its group. -/
def groupsWrites (ctx : GroupContext) (schedule : Schedule) (body : Stmt) :
    (count first : Nat) → Progress → List (Nat × Write)
  | 0, _, _ => []
  | n + 1, g, s =>
    let group := { ctx with group := Int64.ofNat g }
    (groupWrites group schedule body s).map (g, ·) ++
      following (runGroup group schedule body) s fun _ s => groupsWrites ctx schedule body n (g + 1) s

/-- The writes of a kernel, each with its group. -/
def kernelWrites (d : Device) (host : Scope) (k : Kernel) (s : Progress) : List (Nat × Write) :=
  match d.context host s.global k with
  | .ok ctx => groupsWrites ctx d.schedule k.body ctx.numGroups.toInt.toNat 0 s
  | .error _ => []

/-- A group that does what another one does writes what that one writes. -/
theorem groupWrites_congr (h : Mimics ctx ctx' stmt stmt') (hsize : ctx.groupSize = ctx'.groupSize)
    (schedule : Schedule) :
    groupWrites ctx schedule stmt = groupWrites ctx' schedule stmt' := by
  funext s
  unfold groupWrites groupStart
  rw [hsize, h.trace]

/-- The memory when some groups have made their writes. -/
def written (m : Memory) (past : List (Nat × Write)) : Memory := ((Store.ofGlobal m).puts (past.map (·.2))).global

/-- Groups one after another, of which each one ends without a fault, after its writes. -/
theorem runGroups_eq_ok {P : Nat} (Q : Nat → List (Nat × Write) → Prop)
    (hgroup : ∀ g < P, ∀ past s, Q g past → s.global = written m past →
      ∃ s', runGroup { ctx with group := Int64.ofNat g } schedule body s = .ok () s' ∧
        Q (g + 1) (past ++ (groupWrites { ctx with group := Int64.ofNat g } schedule body s).map (g, ·)) ∧
        s'.global = written m (past ++ (groupWrites { ctx with group := Int64.ofNat g } schedule body s).map (g, ·))) :
    ∀ (count first : Nat) (past : List (Nat × Write)) (s : Progress), first + count ≤ P → Q first past →
      s.global = written m past → ∃ s', runGroups ctx schedule body count first s = .ok () s' ∧
        Q (first + count) (past ++ groupsWrites ctx schedule body count first s) ∧
        s'.global = written m (past ++ groupsWrites ctx schedule body count first s)
  | 0, first, past, s, _, hQ, hs => by
    rw [groupsWrites, List.append_nil]
    exact ⟨s, rfl, hQ, hs⟩
  | count + 1, first, past, s, hle, hQ, hs => by
    obtain ⟨s₁, hrun, hQ₁, hs₁⟩ := hgroup first (by omega) past s hQ hs
    obtain ⟨s', hrest, hQ', hs'⟩ := runGroups_eq_ok Q hgroup count (first + 1) _ s₁ (by omega) hQ₁ hs₁
    have writes : groupsWrites ctx schedule body (count + 1) first s =
        (groupWrites { ctx with group := Int64.ofNat first } schedule body s).map (first, ·) ++
          groupsWrites ctx schedule body count (first + 1) s₁ := by
      rw [groupsWrites, following, hrun]
    rw [writes, ← List.append_assoc, show first + (count + 1) = first + 1 + count by omega]
    exact ⟨s', Run.bind_eq_ok.mpr ⟨(), s₁, hrun, hrest⟩, hQ', hs'⟩

/-- The launch of a kernel whose groups end without a fault. -/
theorem runKernel_of_groups {d : Device} {host : Scope} {k : Kernel} (stats : LaunchStats) {P : Nat}
    (hctx : d.context host m k = .ok ctx) (hP : ctx.numGroups.toInt = P) (Q : Nat → List (Nat × Write) → Prop)
    (hQ : Q 0 [])
    (hgroup : ∀ g < P, ∀ past s, Q g past → s.global = written m past →
      ∃ s', runGroup { ctx with group := Int64.ofNat g } d.schedule k.body s = .ok () s' ∧
        Q (g + 1) (past ++ (groupWrites { ctx with group := Int64.ofNat g } d.schedule k.body s).map (g, ·)) ∧
        s'.global = written m (past ++
          (groupWrites { ctx with group := Int64.ofNat g } d.schedule k.body s).map (g, ·))) :
    ∃ s', d.runKernel host k ⟨m, stats⟩ = .ok () s' ∧ Q P (d.kernelWrites host k ⟨m, stats⟩) ∧
      s'.global = written m (d.kernelWrites host k ⟨m, stats⟩) := by
  obtain ⟨s', hrun, hQ', hs'⟩ := runGroups_eq_ok Q hgroup P 0 [] ⟨m, stats⟩ (by omega) hQ rfl
  have hcount : ctx.numGroups.toInt.toNat = P := by omega
  have writes : d.kernelWrites host k ⟨m, stats⟩ = groupsWrites ctx d.schedule k.body P 0 ⟨m, stats⟩ := by
    unfold kernelWrites
    dsimp only
    rw [hctx]
    dsimp only
    rw [hcount]
  rw [List.nil_append, Nat.zero_add] at hQ'
  rw [writes]
  refine ⟨_, runKernel_eq_ok.mpr ⟨ctx, s', hctx, ?_, rfl⟩, hQ', hs'⟩
  rw [hcount]
  exact hrun

end Device

namespace Team
variable {G : Team} {T T' : Nat → Thread → Prop} {stmt stmt' : Stmt} {R : List Write → Prop}

/-- A statement that does what another one does leads where that one leads. -/
theorem Leads.of_mimics {m : Store} (h : G.Leads T m stmt' T' R) (hsame : Mimics G.ctx G.ctx stmt stmt') :
    G.Leads T m stmt T' R := by
  unfold Leads
  rw [hsame.exec, funext (hsame.trace G.order)]
  exact h

/-- A group whose code is taken from its start to its end, and its writes. -/
theorem runGroup_writes {schedule : Schedule} (horder : G.order = schedule.order G.size)
    (hsize : G.ctx.groupSize.toInt.toNat = G.size) {s : Device.Progress}
    (h : G.Leads (fun _ th => th = {}) (.ofGlobal s.global) stmt T R) :
    ∃ s', Device.runGroup G.ctx schedule stmt s = .ok () s' ∧ R (Device.groupWrites G.ctx schedule stmt s) ∧
      s'.global = ((Store.ofGlobal s.global).puts (Device.groupWrites G.ctx schedule stmt s)).global := by
  obtain ⟨t, hexec, ht, hR⟩ := h { threads := Array.replicate G.size {}, global := s.global, stats := s.stats }
    ⟨by simp, fun t ht => by simp [GroupState.thread, ht], rfl, orderly_empty _ _⟩
  have writes : Device.groupWrites G.ctx schedule stmt s = (Run.trace Run.writesAt G.ctx stmt G.order
      { threads := Array.replicate G.size {}, global := s.global, stats := s.stats }).map (·.2) := by
    unfold Device.groupWrites Device.groupStart
    rw [hsize, ← horder]
  rw [writes]
  refine ⟨⟨t.global, t.stats⟩, ?_, hR, congrArg Store.global ht.store⟩
  rw [Device.runGroup_eq, hsize, ← horder, Device.groupStart, hsize, hexec]
  rfl

end Team
end SegKernel
