import Mathlib.Algebra.BigOperators.Ring.List
import SegKernel.Proofs.Maps.Preparing

/-! Maps over spaces without points. A thread computes the indices of its position before it is tested whether
    there is a point, and divides by the extents after the first one; a group divides by the extents of the spaces
    inside even before this. Where these are positive, or where a loop around all this makes no round, a kernel
    runs to its end without the body, and writes nothing. -/

namespace SegKernel
open Exp Lowering

/-! ### Covers -/

/-- Positions in a grid of `P` groups of `G` threads have indices, if a thread comes to compute them. -/
def Coverage.HasIndices (c : Coverage) (ds : List Nat) (P G : Nat) : Prop :=
  match c with
  | direct => (∀ d ∈ ds.tail, 0 < d) ∧ Fits ds.tail.prod ∧ Fits ((P * G : Nat) : Int)
  | virtualize | full => True

/-- A map over a space without points. Of the operations in its body only the spaces matter, where their indices
    are computed in advance. -/
structure Segmented.Empty (op : SegOp) (H : Surroundings) (ds : List Nat) (P G : Nat) : Prop where
  named : op.WellNamed H.env
  bound : ∀ x ∈ op.allNames, ¬H.env.Known x
  extents : List.Forall₂ (IsInt H.scope) op.space.dimExps (ints ds)
  empty : 0 ∈ ds
  indices : op.grid.coverage.HasIndices ds P G
  inner : op.grid.level = .group → ∀ pattern inner, .nested pattern inner ∈ op.stms →
    inner.space.shape.all H.env.isInvariant = true →
      ∃ es, List.Forall₂ (IsInt H.scope) inner.space.dimExps (ints es) ∧ inner.grid.coverage.Precomputable es G

theorem fits_zero : Fits ((0 : Nat) : Int) := fits_toInt 0

namespace Team
variable {op : SegOp} {H : Surroundings} {ds : List Nat} {G : Team} {g n P : Nat} {m : Store} {code : Stmt}
  {launch : Launch} {σ : Nat → Scope}

/-- Every position is past the end of the space. -/
theorem leads_pastEnd (hE : op.Empty H ds P G.size) (hcoverage : op.grid.coverage = .direct)
    (hσ : ∀ t < G.size, op.Around H n (σ t)) {position : Exp} {f : Nat → Nat}
    (hposition : ∀ t < G.size, IsInt (σ t) position (f t)) :
    G.Leads (G.Knowing σ) m ((Launch.atPoint {} .direct op.space position).wrap code) (G.Knowing σ) (· = []) := by
  have hempty : ds.prod = 0 := List.prod_eq_zero hE.empty
  have hindices := hE.indices
  rw [hcoverage] at hindices
  obtain ⟨hpos, htail, -⟩ := hindices
  have visit : G.LeadsAll (G.Knowing σ) m [.declareInit op.space.flat .i64 position,
      .unflatten op.space.extents (.var op.space.flat),
      .when (if Coverage.direct = .full then .bool true else (Exp.var op.space.flat).lt op.space.size) code]
      (G.Knowing σ) (· = []) := by
    refine leads_block.mp (Leads.silent fun t ht th hth => ?_)
    rw [Solo.ensures_block]
    exact Solo.ensures_guarded hE.named.nodup (hE.extents.imp fun _ _ hd => hd.mono (hσ t ht).host) hpos htail
      (by rw [hempty]; exact fits_zero) (fun x hx => (hσ t ht).new hE.named x (List.mem_append_left _ hx))
      (hposition t ht) (fun h => nomatch h) hth (fun hf => absurd hf (hempty ▸ Nat.not_lt_zero _)) fun _ th' hth' => ⟨hth', rfl⟩
  exact leads_block.mpr visit

/-- The groups have the turn of no round. -/
theorem leads_roundless (hop : op.WellNamed H.env) (hgroup : G.ctx.group = Int64.ofNat g)
    (hσ : ∀ t < G.size, op.Around H n (σ t)) {coverage : Coverage} (hcoverage : coverage ≠ .direct)
    {required flat : Exp} (hrequired : IsInt H.scope required 0) (hnumGroups : IsInt H.scope launch.numGroups P)
    (hg : g < P) :
    G.Leads (G.Knowing σ) m
      ((Launch.atPoint ((launch.coverGroups coverage required).run n).1.2 coverage op.space flat).wrap code)
      (G.Knowing σ) (· = []) := by
  have hzero : (0 - g + P - 1) / P = 0 := Nat.div_eq_of_lt (by omega)
  have hfits : Fits ((0 + P : Nat) : Int) := by
    rw [Nat.zero_add]
    exact hnumGroups.fits
  cases coverage with
  | direct => exact absurd rfl hcoverage
  | virtualize | full =>
    exact leads_rounds hop hgroup hσ hrequired hnumGroups hg hfits (by rw [hzero]; exact Nat.zero_le _)
      (fun _ out => out = []) rfl fun k hk => absurd hk (hzero ▸ Nat.not_lt_zero k)

/-- A group that has found its place runs nothing of the code. -/
theorem leads_empty (hE : op.Empty H ds P G.size) (hgroup : G.ctx.group = Int64.ofNat g)
    (hσ : G.Oriented op H launch g n σ) (hnumGroups : IsInt H.scope launch.numGroups P)
    (hgroupSize : IsInt H.scope launch.groupSize G.size) (hg : g < P) :
    G.Leads (G.Knowing σ) m (((launch.coverBy op.grid.level op.grid.coverage op.space).run n).1.wrap code)
      (G.Knowing σ) (· = []) := by
  have hsize : IsInt H.scope op.space.size 0 := by
    have := isInt_product (List.forall₂_map_right_iff.mp hE.extents)
      (by rw [List.prod_eq_zero hE.empty]; exact fits_zero)
    rwa [List.prod_eq_zero hE.empty] at this
  have required : IsInt H.scope (op.space.size.divUp launch.groupSize) 0 := by
    have := IsInt.divUp (a := 0) hsize hgroupSize G.pos (by rw [Int.natCast_zero, Int.zero_add]; exact hgroupSize.fits)
    rwa [Nat.zero_add, Nat.div_eq_of_lt (by have := G.pos; omega)] at this
  by_cases hcoverage : op.grid.coverage = .direct
  · have hindices := hE.indices
    rw [hcoverage] at hindices ⊢
    obtain ⟨-, -, hfits⟩ := hindices
    cases op.grid.level with
    | thread => exact leads_pastEnd hE hcoverage hσ.around fun t ht => hσ.isInt_position hgroupSize hg hfits ht
    | group =>
      refine leads_pastEnd hE hcoverage (f := fun _ => g) hσ.around fun t ht => .var_nat (hσ.groupId t ht) ?_
      have := hnumGroups.fits
      unfold Fits at *
      omega
  · cases op.grid.level with
    | thread => exact leads_roundless hE.named hgroup hσ.around hcoverage required hnumGroups hg
    | group => exact leads_roundless hE.named hgroup hσ.around hcoverage hsize hnumGroups hg

/-- The group runs the frame of the map, whatever the code of its points is. -/
theorem leads_emptyFrame (code : Stmt) (hE : op.Empty H ds P G.size)
    (hcaptured : G.ctx.captured = H.env.bindings H.host) (hgroup : G.ctx.group = Int64.ofNat g)
    (hnumGroups : IsInt H.scope op.grid.groupCount P) (hgroupSize : IsInt H.scope op.grid.groupWidth G.size)
    (hg : g < P) :
    G.Leads (fun _ th => th = {}) m (op.frame H.env n code) (fun _ _ => True) (· = []) :=
  leads_frame hE.named hcaptured hgroup hgroupSize hE.inner code fun _ _ _ hcount hwidth horiented _ =>
    (leads_empty hE hgroup horiented (hcount ▸ hnumGroups) (hwidth ▸ hgroupSize) hg).imp (fun _ _ _ => id)
      (fun _ _ _ _ => trivial) fun _ => id

end Team

/-! ### The launch -/

namespace Segmented
variable {op : SegOp} {H : Surroundings} {d : Device} {ds : List Nat} {k : Kernel} {P G g : Nat}

/-- The arrays that a kernel shares have lengths, which the host knows. -/
def Shares (H : Surroundings) (k : Kernel) : Prop := ∀ a ∈ k.body.sharedArrays, ∃ n : Nat, IsInt H.scope a.length n

/-- A group of the launch leaves the memory as it is. -/
theorem runGroup_empty (hk : op.Frames H k) (hE : op.Empty H ds P G) (hsized : op.Sized H P G) (hshares : Shares H k)
    {captured : Table Value} (hcaptured : k.body.Agrees captured (H.env.bindings H.host)) (hg : g < P)
    (s : Device.Progress) :
    ∃ s', Device.runGroup { contextOf H d P G g with captured } d.schedule k.body s = .ok () s' ∧
      s'.global = s.global := by
  obtain ⟨n, code, hhoist⟩ := hk.codes
  let T := groupAt H d P hsized.threads g
  obtain ⟨s', hrun, hnone, hs'⟩ :=
    runGroup_of_hoisted (T := T) rfl rfl rfl hsized.groupSize.fits hhoist hshares hcaptured
    (Team.mimics_frame (G := T) hE.named rfl rfl hsized.groupSize hE.inner n code) fun shared _ =>
      Team.leads_emptyFrame (m := ⟨shared, s.global⟩) code.dropShared hE rfl rfl hsized.numGroups hsized.groupSize hg
  rw [hnone] at hs'
  exact ⟨s', hrun, hs'⟩

theorem runGroups_empty (hk : op.Frames H k) (hE : op.Empty H ds P G) (hsized : op.Sized H P G) (hshares : Shares H k)
    {captured : Table Value} (hcaptured : k.body.Agrees captured (H.env.bindings H.host)) :
    ∀ (count first : Nat) (s : Device.Progress), first + count ≤ P →
      ∃ s', Device.runGroups { contextOf H d P G 0 with captured } d.schedule k.body count first s = .ok () s' ∧
        s'.global = s.global
  | 0, _, s, _ => ⟨s, rfl, rfl⟩
  | count + 1, first, s, hfirst => by
    obtain ⟨s₁, hrun₁, hs₁⟩ := runGroup_empty (d := d) hk hE hsized hshares hcaptured (show first < P by omega) s
    obtain ⟨s', hrun', hs'⟩ := runGroups_empty hk hE hsized hshares hcaptured count (first + 1) s₁ (by omega)
    exact ⟨s', Run.bind_eq_ok.mpr ⟨(), s₁, hrun₁, hrun'⟩, hs'.trans hs₁⟩

/-- The launch of the kernel leaves the memory as it is. -/
theorem runKernel_empty (hk : op.Frames H k) (hE : op.Empty H ds P G) (hsized : op.Sized H P G) (hshares : Shares H k)
    (stats : LaunchStats) : ∃ s', d.runKernel H.host k ⟨H.memory, stats⟩ = .ok () s' ∧ s'.global = H.memory := by
  obtain ⟨captured, hcaptures, hagrees⟩ := hk.captures
  obtain ⟨s₁, hrun, hs₁⟩ := runGroups_empty (d := d) hk hE hsized hshares hagrees P 0 ⟨H.memory, stats⟩ (by omega)
  refine ⟨_, Device.runKernel_eq_ok.mpr ⟨_, s₁, hsized.context_eq hk.numGroups hk.groupSize hcaptures, ?_, rfl⟩, hs₁⟩
  show Device.runGroups _ _ _ (Int64.ofNat P).toInt.toNat 0 _ = _
  rw [toInt_ofNat_of_fits hsized.numGroups.fits, Int.toNat_natCast]
  exact hrun

end Segmented

/-! ### The program -/

namespace Device

/-- A program gets the arrays that it allocates, and they are zeroed, if no name is taken twice. -/
theorem allocations_eq_ok {host : Scope} : ∀ {as : List Allocation}, (∀ a ∈ as, ∃ n : Nat, IsInt host a.length n) →
    ∀ s : Progress, ∃ memory, as.forM (allocate host) s = .ok () { s with global := memory } ∧
      (∀ a ∈ as, a.name ∈ memory) ∧ (∀ x ∈ s.global, x ∈ memory) ∧ (∀ x ∉ as.map (·.name), memory[x]? = s.global[x]?) ∧
      ((as.map (·.name)).Nodup → ∀ a ∈ as, ∀ n : Nat, IsInt host a.length n → memory[a.name]? = some (.zeroed a.type n))
  | [], _, s => ⟨s.global, rfl, by simp, fun _ => id, fun _ _ => rfl, by simp⟩
  | a :: as, h, s => by
    obtain ⟨n, hn⟩ := h a List.mem_cons_self
    obtain ⟨i, hi, hvalue⟩ := hn.evalInt
    have length : arrayLength a.name i = .ok n := by
      unfold arrayLength
      rw [if_neg (by omega), hvalue, Int.toNat_natCast]
    have first : allocate host a s = .ok () { s with global := s.global.insert a.name (.zeroed a.type n) } := by
      unfold allocate
      rw [hi]
      simp only [bind, Except.bind, length]
    obtain ⟨memory, hrest, hnew, hold, hother, hzeroed⟩ :=
      allocations_eq_ok (fun b hb => h b (List.mem_cons_of_mem a hb))
        { s with global := s.global.insert a.name (.zeroed a.type n) }
    refine ⟨memory, Run.bind_eq_ok.mpr ⟨(), _, first, hrest⟩, ?_, fun x hx =>
      hold x (Std.ExtTreeMap.mem_insert.mpr (Or.inr hx)), ?_,
      fun hnodup b hb l hl => ?_⟩
    · exact List.forall_mem_cons.mpr ⟨hold _ Std.ExtTreeMap.mem_insert_self, hnew⟩
    · intro x hx
      rw [List.map_cons, List.mem_cons, not_or] at hx
      exact (hother x hx.2).trans (Table.getElem?_insert_of_ne _ _ (Ne.symm hx.1))
    · obtain ⟨hnotin, hnodup⟩ := List.nodup_cons.mp hnodup
      rcases List.mem_cons.mp hb with rfl | hb
      · obtain rfl : l = n := Int.ofNat_inj.mp (hl.unique hn)
        exact (hother _ hnotin).trans Std.ExtTreeMap.getElem?_insert_self
      · exact hzeroed hnodup b hb l hl

/-- The arrays that a program allocates and those that its kernels share have lengths, which the host knows. -/
structure HasRoom (d : Device) (env : HostEnv) (p : Program) : Prop where
  allocations : ∀ a ∈ p.allocations, ∃ n : Nat, IsInt (d.surroundings env p).host a.length n
  shared : ∀ k ∈ p.kernels, Segmented.Shares (d.surroundings env p) k

/-- A device runs the program of a map over a space without points, by threads or by groups, without a fault and
    changes nothing in the memory that there was before, whatever the body would do at a point. -/
theorem run_empty_map {m : Module} {config : Config} {p : Program} {d : Device} {pattern : List PatElem} {op : SegOp}
    {ds : List Nat} {P G : Nat} (hm : m.ops = [.seg pattern op]) (hkind : op.kind = .map) (hp : m.lower config = .ok p)
    (hhost : (d.surroundings m.env p).Complete) (hE : op.Empty (d.surroundings m.env p) ds P G)
    (hsized : op.Sized (d.surroundings m.env p) P G) (hroom : d.HasRoom m.env p) :
    ∃ stats memory, d.run p = (.ok stats, { d with global := memory }) ∧
      ∀ x ∉ p.allocations.map (·.name), memory[x]? = d.global[x]? := by
  obtain ⟨memory, hallocate, hnew, hold, hother, -⟩ := allocations_eq_ok hroom.allocations { global := d.global }
  let H : Surroundings := { d.surroundings m.env p with memory }
  have complete : H.Complete := ⟨hhost.scalars, fun x hx => hold x (hhost.arrays x hx), hhost.apart⟩
  have empty : op.Empty H ds P G := ⟨hE.named, hE.bound, hE.extents, hE.empty, hE.indices, hE.inner⟩
  have sized : op.Sized H P G :=
    ⟨hsized.groups, hsized.threads, hsized.numGroups, hsized.groupSize, hsized.hostGroups, hsized.hostThreads⟩
  obtain ⟨k, hkernels, hk⟩ := Module.frames_of_lower (H := H) hm hkind rfl hE.bound
    (fun x hx => hE.named.hostNames x (hx.imp id Or.inl)) complete hnew hp
  have shares : Segmented.Shares H k := hroom.shared k (by rw [hkernels]; exact List.mem_singleton_self k)
  obtain ⟨s, hrun, hglobal⟩ := Segmented.runKernel_empty (d := d) hk empty sized shares {}
  have hprogram : d.runProgram p { global := d.global } = .ok () s := by
    unfold runProgram
    rw [hkernels]
    exact Run.bind_eq_ok.mpr ⟨(), _, hallocate, Run.bind_eq_ok.mpr ⟨(), s, hrun, rfl⟩⟩
  refine ⟨s.stats, memory, ?_, hother⟩
  unfold run
  rw [hprogram]
  dsimp only
  rw [hglobal]

/-! ### Maps that are run -/

/-- For no row of three elements, sums that divide by zero. -/
def noRowsOp : SegOp where
  kind := .map
  grid := ⟨.group, .int 2, .int 2, .direct⟩
  space := ⟨"p", [("i", .int 0), ("j", .int 3)]⟩
  stms := [.nested [⟨"s", .i64, []⟩] {
    kind := .reduce [{
      lambda := { params := [⟨"x", .i64⟩, ⟨"y", .i64⟩], results := [.binary .add (.var "x") (.var "y")] }
      neutral := [.int 0] }]
    grid := ⟨.thread, .int 2, .int 2, .direct⟩
    space := ⟨"q", [("c", .int 4)]⟩
    stms := [.compute "z" .i64 (.binary .div (.int 1) (.int 0))]
    results := [.returns (.var "z")] }]
  results := [.returns (.var "s")]

def noRows : Module := ⟨mirrorEnv, [.seg [⟨"ys", .i64, [.int 0, .int 3]⟩] noRowsOp]⟩

theorem noRows_empty : Segmented.Empty noRowsOp mirrorHost [0, 3] 2 2 where
  named := {
    nodup := by decide
    unknown := fun x _ => mirror_unknown x
    names := fun x hx => not_generated (by revert x; decide)
    hostNames := mirror_regular.hostNames }
  bound := fun x _ => mirror_unknown x
  extents := .cons (IsInt.int 0) (.cons (IsInt.int 3) .nil)
  empty := by decide
  indices := ⟨by decide, by unfold Fits; decide, by unfold Fits; decide⟩
  inner := by
    rintro - pattern inner hinner -
    obtain ⟨rfl, rfl⟩ := BodyStm.nested.inj (List.mem_singleton.mp hinner)
    exact ⟨[4], .cons (IsInt.int 4) .nil, by simp, by unfold Fits; decide⟩

theorem noRows_harmless :
    let d : Device := { wave := 1, checkRaces := true, global := mirrorMemory }
    ∃ p stats, noRows.lower {} = .ok p ∧ d.run p = (.ok stats, d) := by
  intro d
  obtain ⟨p, hp, htuning, hconstants, hallocations, hshared⟩ : ∃ p ∈ (noRows.lower {}).toOption, p.tuning.isEmpty ∧
      (constants p).isEmpty ∧ p.allocations = [] ∧ ∀ k ∈ p.kernels, ∀ a ∈ k.body.sharedArrays, a.length = .int 4 := by
    decide +kernel
  have hhost : d.surroundings noRows.env p = mirrorHost := by
    unfold surroundings hostEnv
    rw [List.isEmpty_iff.mp htuning, List.isEmpty_iff.mp hconstants]
    rfl
  have hroom : d.HasRoom noRows.env p := ⟨by simp [hallocations], fun k hk a ha => ⟨4, hshared k hk a ha ▸ IsInt.int 4⟩⟩
  obtain ⟨stats, memory, hrun, hsame⟩ :=
    run_empty_map rfl rfl (ok_of_toOption hp) (hhost ▸ mirror_complete) (hhost ▸ noRows_empty)
    (hhost ▸ ⟨by decide, by decide, IsInt.int 2, IsInt.int 2, IsInt.int 2, IsInt.int 2⟩) hroom
  have same : memory = d.global := Std.ExtTreeMap.ext_getElem? fun x => hsame x (by simp [hallocations])
  subst same
  exact ⟨p, stats, ok_of_toOption hp, hrun⟩

/-- Two rows without elements. -/
def emptyRows : Module where
  env := { arrays := ({} : Table _).insert "ys" (.i64, [.int 2, .int 0]) }
  ops := [.seg [⟨"ys", .i64, [.int 2, .int 0]⟩] {
    kind := .map
    grid := ⟨.thread, .int 1, .int 4, .direct⟩
    space := ⟨"flat", [("i", .int 2), ("j", .int 0)]⟩
    stms := []
    results := [.returns (.int 7)] }]

/-- The index of the row is divided by the length of a row before it is tested whether there is a point. -/
theorem emptyRows_go_wrong :
    let m := emptyRows
    let d : Device := { wave := 1, global := ({} : Memory).insert "ys" (.zeroed .i64 0) }
    (∃ op pattern, m.ops = [.seg pattern op] ∧ op.grid.coverage = .direct ∧
      List.Forall₂ (IsInt fun _ => none) op.space.dimExps (ints [2, 0])) ∧
    ∃ p, m.lower {} = .ok p ∧ (d.run p).1 = .error .divisionByZero := by
  intro m d
  refine ⟨⟨_, _, rfl, rfl, .cons (IsInt.int 2) (.cons (IsInt.int 0) .nil)⟩, ?_⟩
  obtain ⟨p, hp, hfault⟩ : ∃ p ∈ (m.lower {}).toOption, (d.run p).1 = .error .divisionByZero := by decide +kernel
  exact ⟨p, ok_of_toOption hp, hfault⟩

end Device
end SegKernel
