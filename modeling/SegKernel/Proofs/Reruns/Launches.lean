import SegKernel.Proofs.Execution.Launching
import SegKernel.Proofs.Lowering.Careful
import SegKernel.Proofs.Reruns.Runs

/-! Launches that are stopped and run again. A kernel without atomic operations that reads no array that
    it writes may be stopped after any of its groups: run again from the beginning, it leaves the memory
    that it leaves when it is run once. -/

namespace SegKernel.Device
open Run

/-- Runs the given groups of a kernel, and stops. -/
def runSome (d : Device) (host : Scope) (k : Kernel) (groups : List Nat) : Launch Unit := do
  let ctx ← fun s => match d.context host s.global k with
    | .ok ctx => .ok ctx s
    | .error fault => .error fault s
  groups.forM fun g => runGroup { ctx with group := Int64.ofNat g } d.schedule k.body

variable {W : Ident → Prop} {body : Stmt}

/-- A group writes the same elements whatever the stale ones are. -/
theorem runGroup_echoes (hbody : body.Forgetful W) {ctx : GroupContext} {schedule : Schedule} {s s' : Progress}
    (hrun : runGroup ctx schedule body s = .ok () s') :
    ∃ U : Elements, U.Of W ∧ ∀ (D : Elements) (t : Progress), D.Of W → s.global.Differs D t.global →
      ∃ t', runGroup ctx schedule body t = .ok () t' ∧
        s'.global.Differs (fun n i => D n i ∧ ¬U n i) t'.global ∧ t.global.Differs U t'.global := by
  unfold runGroup at *
  dsimp only at *
  split at hrun
  · rename_i u a' hexec
    cases hrun
    obtain ⟨U, hU, hecho⟩ := exec_echoes ctx body hbody _ _ _ _ hexec
    refine ⟨U, hU, fun D t hD hst => ?_⟩
    obtain ⟨b', hb', hab', hframe⟩ := hecho D
      { threads := Array.replicate ctx.groupSize.toInt.toNat {}, global := t.global, stats := t.stats } hD
      ⟨rfl, rfl, rfl, hst⟩
    rw [hb']
    exact ⟨_, rfl, hab'.global, hframe⟩
  · cases hrun

/-- The groups of a launch, of which each one writes certain elements: alone from any memory with stale
    elements, and in its turn among the others. -/
theorem runGroups_echoes (hbody : body.Forgetful W) (ctx : GroupContext) (schedule : Schedule) :
    ∀ (n first : Nat) {s s' : Progress}, runGroups ctx schedule body n first s = .ok () s' →
      ∃ U : Nat → Elements, (∀ g, (U g).Of W) ∧
        (∀ g, first ≤ g → g < first + n → ∀ t : Progress, s.global.Differs (fun a _ => W a) t.global →
          ∃ t', runGroup { ctx with group := Int64.ofNat g } schedule body t = .ok () t' ∧
            t.global.Differs (U g) t'.global) ∧
        ∀ (D : Elements) (t : Progress), D.Of W → s.global.Differs D t.global →
          ∃ t', runGroups ctx schedule body n first t = .ok () t' ∧
            s'.global.Differs (fun a i => D a i ∧ ∀ g, first ≤ g → g < first + n → ¬U g a i) t'.global
  | 0, first, s, s', hrun => by
    obtain ⟨-, rfl⟩ := pure_eq_ok.mp hrun
    refine ⟨fun _ _ _ => False, fun _ _ _ => False.elim, fun g hle hlt => absurd hlt (by omega), fun D t _ hst => ?_⟩
    exact ⟨t, rfl, hst.mono fun a i hd => ⟨hd, fun g _ _ => not_false⟩⟩
  | n + 1, first, s, s', hrun => by
    obtain ⟨_, s₁, hfirst, hrest⟩ := bind_eq_ok.mp hrun
    obtain ⟨U₀, hU₀, hecho⟩ := runGroup_echoes hbody hfirst
    obtain ⟨U, hU, hone, hall⟩ := runGroups_echoes hbody ctx schedule n (first + 1) hrest
    -- From the first memory to the next one only what the first group writes has changed.
    have step : s.global.Differs (fun a _ => W a) s₁.global := by
      obtain ⟨t, ht, -, hframe⟩ := hecho (fun _ _ => False) s (fun _ _ => False.elim) (.refl _ _)
      cases hfirst.symm.trans ht
      exact hframe.mono hU₀
    -- The elements of the first group, and for the others those that the induction gives.
    obtain ⟨V, hV₀, hV⟩ : ∃ V : Nat → Elements, V first = U₀ ∧ ∀ g ≠ first, V g = U g :=
      ⟨fun g => if g = first then U₀ else U g, if_pos rfl, fun g hg => if_neg hg⟩
    refine ⟨V, fun g => ?_, fun g hle hlt t hst => ?_, fun D t hD hst => ?_⟩
    · by_cases hg : g = first
      · rw [hg, hV₀]
        exact hU₀
      · rw [hV g hg]
        exact hU g
    · by_cases hg : g = first
      · obtain ⟨t', ht', -, hframe⟩ := hecho _ t (fun _ _ => id) hst
        rw [hg, hV₀]
        exact ⟨t', ht', hframe⟩
      · rw [hV g hg]
        exact hone g (by omega) (by omega) t (step.symm.trans hst)
    · obtain ⟨t₁, ht₁, hst₁, -⟩ := hecho D t hD hst
      obtain ⟨t', ht', hst'⟩ := hall _ t₁ (fun a i hd => hD a i hd.1) hst₁
      refine ⟨t', bind_eq_ok.mpr ⟨(), t₁, ht₁, ht'⟩, hst'.mono fun a i hd => ⟨hd.1.1, fun g hle hlt => ?_⟩⟩
      by_cases hg : g = first
      · rw [hg, hV₀]
        exact hd.1.2
      · rw [hV g hg]
        exact hd.2 g (by omega) (by omega)

theorem context_of_contains {d : Device} {host : Scope} {k : Kernel} {m m' : Memory}
    (h : ∀ a, m'.contains a = m.contains a) : d.context host m' k = d.context host m k := by
  have captured : capture host m' = capture host m := by
    funext env c
    cases c with
    | memory name =>
      unfold capture
      dsimp only
      rw [h]
    | _ => rfl
  unfold context
  rw [captured]

/-- Code that reads no array that it writes may be stopped after some of its groups, in whatever order
    these have run, and run again from the beginning. -/
theorem runKernel_again {d : Device} {host : Scope} {k : Kernel} {s s' : Progress} {P : Int64}
    (hk : k.body.Forgetful (· ∈ k.body.globalWrites)) (hrun : d.runKernel host k s = .ok () s')
    (hP : k.numGroups.evalInt host = .ok P) (groups : List Nat) (hgroups : ∀ g ∈ groups, g < P.toInt.toNat) :
    ∃ t t', d.runSome host k groups s = .ok () t ∧ d.runKernel host k t = .ok () t' ∧ t'.global = s'.global := by
  obtain ⟨ctx, s₁, hctx, hall, rfl⟩ := runKernel_eq_ok.mp hrun
  obtain rfl : ctx.numGroups = P := by
    obtain ⟨_, numGroups, _, -, hnum, -, -, -, rfl⟩ := context_eq_ok.mp hctx
    exact Except.ok.inj (hnum.symm.trans hP)
  obtain ⟨U, hU, hone, hagain⟩ := runGroups_echoes hk ctx d.schedule _ 0 hall
  let V : Elements := fun a i => ∃ g < ctx.numGroups.toInt.toNat, U g a i
  have hV : V.Of (· ∈ k.body.globalWrites) := fun a i ⟨g, _, h⟩ => hU g a i h
  -- On the groups that ran before the stop: each of them leaves only elements of its own stale.
  have some : ∀ (gs : List Nat) (t : Progress), (∀ g ∈ gs, g < ctx.numGroups.toInt.toNat) →
    s.global.Differs V t.global →
      ∃ t', gs.forM (fun g => runGroup { ctx with group := Int64.ofNat g } d.schedule k.body) t = .ok () t' ∧
        s.global.Differs V t'.global := by
    intro gs
    induction gs with
    | nil => exact fun t _ hst => ⟨t, rfl, hst⟩
    | cons g gs ih =>
      intro t hgs hst
      have hg := hgs g List.mem_cons_self
      obtain ⟨t₁, ht₁, hframe⟩ := hone g (Nat.zero_le g) (by omega) t (hst.mono hV)
      obtain ⟨t', ht', hst'⟩ := ih t₁ (fun g' hg' => hgs g' (List.mem_cons_of_mem g hg'))
        (hst.trans (hframe.mono fun a i hu => ⟨g, hg, hu⟩))
      exact ⟨t', bind_eq_ok.mpr ⟨(), t₁, ht₁, ht'⟩, hst'⟩
  obtain ⟨t, ht, hst⟩ := some groups s hgroups (.refl _ _)
  obtain ⟨t', ht', hst'⟩ := hagain V t hV hst
  refine ⟨t, _, ?_, runKernel_eq_ok.mpr ⟨ctx, t', ?_, ht', rfl⟩, ?_⟩
  · unfold runSome
    refine bind_eq_ok.mpr ⟨ctx, s, ?_, ht⟩
    rw [hctx]
  · rw [context_of_contains hst.contains, hctx]
  · refine hst'.eq fun a i hd => ?_
    obtain ⟨⟨g, hg, hu⟩, hnot⟩ := hd
    exact hnot g (Nat.zero_le g) (by omega) hu

/-! ### Kernels of a module -/

/-- A kernel that is flagged as failure tolerant and reads no array that it writes may be stopped after some
    of its groups, and run again. -/
theorem tolerant_again {m : Module} {config : Config} {p : Program} {k : Kernel} {d : Device} {host : Scope}
    {s s' : Progress} {P : Int64} (hp : m.lower config = .ok p) (hk : k ∈ p.kernels)
    (htolerant : k.failureTolerant = true) (hreads : ∀ a ∈ k.body.globalReads, a ∉ k.body.globalWrites)
    (hrun : d.runKernel host k s = .ok () s') (hP : k.numGroups.evalInt host = .ok P) (groups : List Nat)
    (hgroups : ∀ g ∈ groups, g < P.toInt.toNat) :
    ∃ t t', d.runSome host k groups s = .ok () t ∧ d.runKernel host k t = .ok () t' ∧ t'.global = s'.global :=
  runKernel_again ⟨Module.lower_flags hp k hk htolerant, fun _ ha => ha, hreads⟩ hrun hP groups hgroups

/-- The elements of `xs`, each with one added, go to another array. -/
def increment (dest : Ident) : Module where
  env := { arrays := (({} : Table _).insert "xs" (.i64, [.int 4])).insert dest (.i64, [.int 4]) }
  ops := [.seg [⟨dest, .i64, [.int 4]⟩] {
    kind := .map
    grid := ⟨.thread, .int 2, .int 2, .direct⟩
    space := ⟨"flat", [("i", .int 4)]⟩
    stms := [.index "x" .i64 "xs" [.var "i"], .compute "y" .i64 (.binary .add (.var "x") (.int 1))]
    results := [.returns (.var "y")] }]

def incrementStart : Progress :=
  ⟨(({} : Memory).insert "xs" (.ofValues .i64 [.i64 10, .i64 20, .i64 30, .i64 40])).insert "ys" (.zeroed .i64 4), {}⟩

/-- The second group of the copying map runs, and then the whole kernel. -/
theorem increment_copied_again :
    let m := increment "ys"
    let d : Device := { wave := 1 }
    let host : Scope := fun _ => none
    ∃ p k s' t t', m.lower {} = .ok p ∧ k ∈ p.kernels ∧ k.failureTolerant = true ∧
      (∀ a ∈ k.body.globalReads, a ∉ k.body.globalWrites) ∧ d.runKernel host k incrementStart = .ok () s' ∧
      d.runSome host k [1] incrementStart = .ok () t ∧ d.runKernel host k t = .ok () t' ∧ t'.global = s'.global ∧
      s'.global["ys"]?.map Buffer.values = some [.i64 11, .i64 21, .i64 31, .i64 41] := by
  intro m d host
  obtain ⟨k, hk, htolerant, hapart, hP, s', hs', hvalues⟩ : ∃ k ∈ m.firstKernel? {}, k.failureTolerant = true ∧
      (∀ a ∈ k.body.globalReads, a ∉ k.body.globalWrites) ∧ (k.numGroups.evalInt host).toOption = some 2 ∧
      ∃ s' ∈ reached? (d.runKernel host k incrementStart),
        s'.global["ys"]?.map Buffer.values = some [.i64 11, .i64 21, .i64 31, .i64 41] := by decide +kernel
  obtain ⟨p, hp, hmem⟩ := Module.mem_of_firstKernel? hk
  obtain ⟨t, t', ht, ht', hsame⟩ := tolerant_again hp hmem htolerant hapart (eq_ok_of_reached? hs') (ok_of_toOption hP)
    [1] (by decide)
  exact ⟨p, k, s', t, t', hp, hmem, htolerant, hapart, eq_ok_of_reached? hs', ht, ht', hsame, hvalues⟩

/-- The map in place is flagged as failure tolerant as well. Stopped after both of its groups and run again,
    it adds one twice. -/
theorem increment_in_place_twice :
    let m := increment "xs"
    let d : Device := { wave := 1 }
    let host : Scope := fun _ => none
    ∃ p k s' t t', m.lower {} = .ok p ∧ k ∈ p.kernels ∧ k.failureTolerant = true ∧
      d.runKernel host k incrementStart = .ok () s' ∧
      d.runSome host k [0, 1] incrementStart = .ok () t ∧ d.runKernel host k t = .ok () t' ∧
      s'.global["xs"]?.map Buffer.values = some [.i64 11, .i64 21, .i64 31, .i64 41] ∧
      t'.global["xs"]?.map Buffer.values = some [.i64 12, .i64 22, .i64 32, .i64 42] := by
  intro m d host
  obtain ⟨k, hk, htolerant, ⟨s', hs', hvalues⟩, t, ht, t', ht', hvalues'⟩ : ∃ k ∈ m.firstKernel? {},
      k.failureTolerant = true ∧
      (∃ s' ∈ reached? (d.runKernel host k incrementStart),
        s'.global["xs"]?.map Buffer.values = some [.i64 11, .i64 21, .i64 31, .i64 41]) ∧
      ∃ t ∈ reached? (d.runSome host k [0, 1] incrementStart), ∃ t' ∈ reached? (d.runKernel host k t),
        t'.global["xs"]?.map Buffer.values = some [.i64 12, .i64 22, .i64 32, .i64 42] := by decide +kernel
  obtain ⟨p, hp, hmem⟩ := Module.mem_of_firstKernel? hk
  exact ⟨p, k, s', t, t', hp, hmem, htolerant, eq_ok_of_reached? hs', eq_ok_of_reached? ht, eq_ok_of_reached? ht',
    hvalues, hvalues'⟩

end SegKernel.Device
