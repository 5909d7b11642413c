import SegKernel.Device.Basic
import SegKernel.Proofs.Evaluation.Folding
import SegKernel.Proofs.Schedules.Runs

/-! On a device that checks for races and promises no lockstep, a program without atomic operations that
    runs under one schedule runs under the other one to the same end. -/

namespace SegKernel

namespace Run
variable {ctx : GroupContext} {K : Ident → Prop}

theorem waveOf_eq_of_wave_one (h : ctx.wave = 1) (t : Nat) : waveOf ctx t = Int64.ofNat t := by
  rw [waveOf, h, Int64.div_one]

theorem solitary_of_wave_one (hchecked : ctx.checkRaces = true) (hwave : ctx.wave = 1) :
    Solitary ctx ctx.groupSize.toInt.toNat where
  checked := hchecked
  waves t ht t' ht' hne heq := by
    have fits : ∀ n < ctx.groupSize.toInt.toNat, Fits n := by
      intro n hn
      have := (fits_toInt ctx.groupSize).2
      unfold Fits
      omega
    rw [waveOf_eq_of_wave_one hwave, waveOf_eq_of_wave_one hwave] at heq
    have := congrArg Int64.toInt heq
    rw [toInt_ofNat_of_fits (fits t ht), toInt_ofNat_of_fits (fits t' ht')] at this
    exact hne (by omega)

end Run

namespace Device
open Run

/-- Where the first launch ends without a fault, so does the second one, with the same memory. -/
def Follows (r r' : Launch Unit) : Prop := ∀ s s', r s = .ok () s' → r' s = .ok () s'

theorem Follows.bind {r r' q q' : Launch Unit} (h : Follows r r') (h' : Follows q q') :
    Follows (do r; q) (do r'; q') := by
  intro s s' hrun
  obtain ⟨_, s₁, hr, hq⟩ := bind_eq_ok.mp hrun
  exact bind_eq_ok.mpr ⟨(), s₁, h s s₁ hr, h' s₁ s' hq⟩

theorem Follows.forM {α : Type} {f f' : α → Launch Unit} :
    ∀ {as : List α}, (∀ a ∈ as, Follows (f a) (f' a)) → Follows (as.forM f) (as.forM f')
  | [], _ => fun _ _ h => h
  | a :: as, h => by
    have rest := Follows.forM fun b hb => h b (List.mem_cons_of_mem a hb)
    exact (h a List.mem_cons_self).bind rest

theorem order_reverse_perm (n : Nat) : (Schedule.forward.order n).Perm (Schedule.reverse.order n) :=
  (List.reverse_perm _).symm

theorem among_order (n : Nat) : Among n (Schedule.forward.order n) :=
  ⟨List.nodup_range, fun _ ht => List.mem_range.mp ht⟩

theorem runGroup_follows {ctx : GroupContext} {K : Ident → Prop} {body : Stmt} (hchecked : ctx.checkRaces = true)
    (hwave : ctx.wave = 1) (hbody : body.Fixed K) :
    Follows (runGroup ctx .forward body) (runGroup ctx .reverse body) := by
  intro s s' hrun
  have hmatch := exec_matches (solitary_of_wave_one hchecked hwave) body hbody _ _
    (order_reverse_perm ctx.groupSize.toInt.toNat) (among_order _)
  unfold runGroup at *
  dsimp only at *
  split at hrun
  · rename_i u a' hexec
    cases hrun
    have hnew : Lacks K
        { threads := Array.replicate ctx.groupSize.toInt.toNat {}, global := s.global, stats := s.stats } := by
      intro t x _
      rw [GroupState.thread_of_replicate rfl]
      exact Std.ExtTreeMap.getElem?_empty
    obtain ⟨-, b', hexec', races, -, rfl⟩ := hmatch _ _ a' hnew (.refl _) hexec
    rw [hexec']
  · cases hrun

theorem runGroups_follows {ctx : GroupContext} {K : Ident → Prop} {body : Stmt} (hchecked : ctx.checkRaces = true)
    (hwave : ctx.wave = 1) (hbody : body.Fixed K) : ∀ n g : Nat,
    Follows (runGroups ctx .forward body n g) (runGroups ctx .reverse body n g)
  | 0, _ => fun _ _ h => h
  | n + 1, g => by
    have first : Follows (runGroup { ctx with group := Int64.ofNat g } .forward body)
        (runGroup { ctx with group := Int64.ofNat g } .reverse body) := runGroup_follows hchecked hwave hbody
    exact first.bind (runGroups_follows hchecked hwave hbody n (g + 1))

/-- A wave of at most one thread is one of one thread. -/
theorem max_one_of_le {w : Int64} (h : w.toInt ≤ 1) : max w 1 = 1 := by
  rw [← Int64.toInt_inj, toInt_max]
  exact Int.max_eq_right h

theorem context_ok {d : Device} {host : Scope} {global : Memory} {k : Kernel} {ctx : GroupContext}
    (h : d.context host global k = .ok ctx) : ctx.wave = max d.wave 1 ∧ ctx.checkRaces = d.checkRaces := by
  unfold context at h
  simp only [bind, Except.bind, pure, Except.pure] at h
  split at h
  · cases h
  split at h
  · cases h
  split at h
  · cases h
  split at h
  · cases h
  cases h
  exact ⟨rfl, rfl⟩

variable {d : Device}

theorem runKernel_follows {K : Ident → Prop} (hchecked : d.checkRaces = true) (hwave : d.wave.toInt ≤ 1) {k : Kernel}
    (hk : k.body.Fixed K) (host : Scope) :
    Follows (({ d with schedule := .forward }).runKernel host k)
      (({ d with schedule := .reverse }).runKernel host k) := by
  intro s s' hrun
  unfold runKernel at *
  obtain ⟨ctx, s₁, hctx, hrest⟩ := bind_eq_ok.mp hrun
  have hcontext : d.context host s.global k = .ok ctx := by
    have same : ({ d with schedule := .forward } : Device).context host s.global k = d.context host s.global k := rfl
    rw [same] at hctx
    cases hk : d.context host s.global k with
    | ok ctx' =>
      rw [hk] at hctx
      cases hctx
      rfl
    | error fault =>
      rw [hk] at hctx
      cases hctx
  obtain ⟨hw, hc⟩ := context_ok hcontext
  have groups := runGroups_follows (hc.trans hchecked) (hw.trans (max_one_of_le hwave)) hk
    ctx.numGroups.toInt.toNat 0
  exact bind_eq_ok.mpr ⟨ctx, s₁, hctx, (groups.bind fun _ _ h => h) s₁ s' hrest⟩

theorem runProgram_follows (hchecked : d.checkRaces = true) (hwave : d.wave.toInt ≤ 1) {p : Program}
    (hp : ∀ k ∈ p.kernels, ∃ K, k.body.Fixed K) :
    Follows (({ d with schedule := .forward }).runProgram p) (({ d with schedule := .reverse }).runProgram p) := by
  have kernels := Follows.forM fun k hk => (hp k hk).elim fun _ hfixed =>
    runKernel_follows hchecked hwave hfixed ((d.hostEnv p)[·]?)
  have allocations : Follows (p.allocations.forM (allocate ((d.hostEnv p)[·]?)))
      (p.allocations.forM (allocate ((d.hostEnv p)[·]?))) := fun _ _ h => h
  exact allocations.bind kernels

/-- A program whose accesses are checked to be free of races does not depend on the order in which the
    threads of a group take their turns. -/
theorem run_reverse_of_forward {p : Program} {stats : LaunchStats} {d' : Device} (hchecked : d.checkRaces = true)
    (hwave : d.wave.toInt ≤ 1) (hplain : ∀ k ∈ p.kernels, k.body.usesAtomics = false)
    (hlengths : ∀ k ∈ p.kernels, ∀ a ∈ k.body.sharedArrays, ∀ x ∈ a.length.occurrences,
      x ∉ k.body.declared ∧ x ∉ k.body.assigned)
    (hrun : ({ d with schedule := .forward }).run p = (.ok stats, d')) :
    ({ d with schedule := .reverse }).run p = (.ok stats, { d' with schedule := .reverse }) := by
  have hfixed : ∀ k ∈ p.kernels, ∃ K, k.body.Fixed K := by
    intro k hk
    refine ⟨fun x => x ∉ k.body.declared ∧ x ∉ k.body.assigned, hplain k hk, ?_, ?_, hlengths k hk⟩
    · exact fun x hx hnot => hnot.1 hx
    · exact fun x hx hnot => hnot.2 hx
  have follows := runProgram_follows hchecked hwave hfixed { global := d.global }
  unfold run at *
  dsimp only at *
  split at hrun
  · rename_i u s hs
    rw [follows s hs]
    cases hrun
    rfl
  · cases hrun

/-- Two threads tell each other their numbers through an array of their group. -/
def exchange : Kernel where
  name := "exchange"
  body := .seq [
    .declare "t" .i64 false,
    .query .localId "t",
    .declareArray "pair" .i64 (.int 2) .shared,
    .write ⟨"pair", .i64, .shared, false⟩ (.var "t") (.var "t"),
    .barrier .shared,
    .declare "other" .i64 false,
    .read "other" ⟨"pair", .i64, .shared, false⟩ (.int 1 - .var "t"),
    .write ⟨"out", .i64, .global, false⟩ (.var "t") (.var "other")]
  captures := [.memory "out"]
  numGroups := .int 1
  groupSize := .int 2
  failureTolerant := false

def exchangeDevice : Device := { wave := 1, checkRaces := true, global := ({} : Memory).insert "out" (.zeroed .i64 2) }

/-- The two threads find each other's number whichever takes its turn first. -/
theorem exchange_reversed :
    let d := exchangeDevice
    let p : Program := { kernels := [exchange] }
    (d.run p).1 = .ok ⟨1, 1, 0⟩ ∧ (d.run p).2.download "out" = .ok [.i64 1, .i64 0] ∧
      ({ d with schedule := .reverse }).run p = (.ok ⟨1, 1, 0⟩, { (d.run p).2 with schedule := .reverse }) := by
  intro d p
  have hrun : (d.run p).1 = .ok ⟨1, 1, 0⟩ := ok_of_toOption (by decide +kernel)
  refine ⟨hrun, ok_of_toOption (by decide +kernel), run_reverse_of_forward rfl (by decide) ?_ ?_ (Prod.ext hrun rfl)⟩
  · intro k hk
    rw [List.mem_singleton.mp hk]
    rfl
  · intro k hk a ha x hx
    rw [List.mem_singleton.mp hk] at ha
    have : a = ⟨"pair", .i64, .int 2⟩ := by simpa [exchange, Stmt.sharedArrays, Stmt.sharedArraysAll] using ha
    subst this
    simp [Exp.int, Exp.occurrences] at hx

end Device
end SegKernel
