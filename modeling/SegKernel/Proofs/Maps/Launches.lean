import SegKernel.Proofs.Execution.Launching
import SegKernel.Proofs.Lowering.Careful
import SegKernel.Proofs.Maps.Groups
import SegKernel.Proofs.Maps.Kernels

/-! The launch of a map. Its groups run one after another, and each visits the points of which it has the
    turn, so in the end all writes of the map have been made, and no others. -/

namespace SegKernel
open Exp

/-! ### A group of the launch -/

namespace Segmented
variable {op : SegOp} {H : Surroundings} {pattern : List PatElem} {ds : List Nat} {ws past : List Write} {d : Device}
  {setting : Setting} {k : Kernel} {P G n : Nat} {body results : Stmt}

/-- A launch of the map has `P` groups of `G` threads, which the host and the kernel find alike. -/
structure Sized (op : SegOp) (H : Surroundings) (P G : Nat) : Prop where
  groups : 0 < P
  threads : 0 < G
  numGroups : IsInt H.scope op.grid.groupCount P
  groupSize : IsInt H.scope op.grid.groupWidth G
  hostGroups : IsInt H.host op.grid.groupCount P
  hostThreads : IsInt H.host op.grid.groupWidth G

/-- The context of a group of the launch that knows the variables of the host. -/
def contextOf (H : Surroundings) (d : Device) (P G g : Nat) : GroupContext where
  captured := H.env.bindings H.host
  group := Int64.ofNat g
  groupSize := Int64.ofNat G
  numGroups := Int64.ofNat P
  wave := max d.wave 1
  loopLimit := d.loopLimit
  checkRaces := d.checkRaces

/-- The threads of a group of the launch, which own some slots. -/
def groupOf (H : Surroundings) (d : Device) (P : Nat) {G : Nat} (hG : 0 < G) (g : Nat) (own : Nat → Slot → Prop)
    (hown : OneWave (contextOf H d P G g) G own) : Team where
  ctx := contextOf H d P G g
  order := d.schedule.order G
  size := G
  own := own
  oneWave _ := hown
  nodup := d.schedule.nodup_order G
  mem_order := d.schedule.mem_order G
  pos := hG

/-- The threads of a group of the launch, none of which owns a slot. -/
def groupAt (H : Surroundings) (d : Device) (P : Nat) {G : Nat} (hG : 0 < G) (g : Nat) : Team :=
  groupOf H d P hG g (fun _ _ => False) fun _ _ _ _ _ h => h.elim

/-- The threads of a group of the launch of a map. -/
def team (op : SegOp) (hstores : op.Stores H pattern ds d.loopLimit ws) (P : Nat) {G : Nat} (hG : 0 < G) (g : Nat) :
    Team :=
  groupOf H d P hG g (op.Owns H pattern ds G) (hstores.oneWave _ _)

theorem crew (hstores : op.Stores H pattern ds d.loopLimit ws) (P : Nat) (hG : 0 < G) (g : Nat) :
    op.Crew H pattern ds ws (op.team hstores P hG g) g := ⟨hstores, rfl, rfl, rfl⟩

/-- A group runs the code of the map from its start to its end. -/
theorem leads_code {T : Team} {g : Nat} (hT : op.Crew H pattern ds ws T g) (henv : setting.env = H.env)
    (C : op.Compiled setting pattern
      (((((Launch.start op.grid.groupCount op.grid.groupWidth).run n).1.1.coverByThreads op.grid.coverage op.space).run
        (n + 4)).2) body results)
    (hpast : ∀ w ∈ past, w ∈ ws) (hsized : op.Sized H P T.size) (hg : g < P)
    (hgrid : op.grid.coverage.Suffices ds.prod P T.size T.ctx.loopLimit) :
    T.Leads (fun _ th => th = {}) (Team.reach H past) (op.code n body results) (fun _ _ => True)
      (T.Rounds op H pattern ds P g (op.grid.coverage.rounds ds.prod P T.size g)) := by
  obtain ⟨hentry, horiented⟩ := Team.leads_entry (m := Team.reach H past) (n := n)
    hT.stores.housed.regular.wellNamed hT.captured hT.group op.grid.groupCount op.grid.groupWidth
  have visits := Team.leads_coverByThreads hT henv op.grid.coverage C hpast horiented hsized.numGroups
    hsized.groupSize hg hgrid
  refine Team.leads_block.mpr (.after_silent hentry (Team.leadsAll_singleton.mpr ?_))
  exact visits.imp (fun _ _ _ => id) (fun _ _ _ _ => trivial) fun _ => id

/-- A group runs what was made of some code for a kernel as it runs the code. -/
theorem runGroup_of_leads {T : Team} {g : Nat} (hctx : T.ctx = contextOf H d P G g)
    (horder : T.order = d.schedule.order G) (hsize : T.size = G) (hfits : Fits (G : Int)) {code : Stmt}
    (hprivate : code.Private H.env.Known) (hbody : k.body = .block [code.dropShared]) {captured : Table Value}
    (hcaptured : k.body.Agrees captured (H.env.bindings H.host)) {s : Device.Progress} {T' : Nat → Thread → Prop}
    {R : List Write → Prop} (hleads : T.Leads (fun _ th => th = {}) (.ofGlobal s.global) code T' R) :
    ∃ s' out, Device.runGroup { contextOf H d P G g with captured } d.schedule k.body s = .ok () s' ∧
      Device.groupWrites { contextOf H d P G g with captured } d.schedule k.body s = out ∧ R out ∧
      s'.global = ((Store.ofGlobal s.global).puts out).global := by
  have same : Mimics { contextOf H d P G g with captured } T.ctx k.body code := by
    have agrees : k.body.Agrees { contextOf H d P G g with captured }.captured (H.env.bindings H.host) := hcaptured
    rw [hctx]
    refine (mimics_of_agrees agrees).symm.trans ?_
    rw [hbody]
    exact mimics_block_dropShared hprivate.shared
  have hwidth : T.ctx.groupSize.toInt.toNat = T.size := by
    rw [hctx, hsize]
    show (Int64.ofNat G).toInt.toNat = G
    rw [toInt_ofNat_of_fits hfits, Int.toNat_natCast]
  have hgroupSize : ({ contextOf H d P G g with captured } : GroupContext).groupSize = T.ctx.groupSize := by rw [hctx]
  obtain ⟨s', hrun, hR, hglobal⟩ := Team.runGroup_writes (hsize ▸ horder) hwidth hleads
  rw [Device.groupWrites_congr same hgroupSize, Device.runGroup_congr same.exec hgroupSize]
  exact ⟨s', _, hrun, rfl, hR, hglobal⟩

/-- A group of the launch makes the writes of the points of which it has the turn. -/
theorem runGroup_visits (hk : op.Runs setting H pattern k) (henv : setting.env = H.env)
    (hstores : op.Stores H pattern ds d.loopLimit ws) (hsized : op.Sized H P G)
    (hgrid : op.grid.coverage.Suffices ds.prod P G d.loopLimit) (hpast : ∀ w ∈ past, w ∈ ws) {captured : Table Value}
    (hcaptured : k.body.Agrees captured (H.env.bindings H.host)) {g : Nat} (hg : g < P) {s : Device.Progress}
    (hs : s.global = (Team.reach H past).global) :
    ∃ s' out, Device.runGroup { contextOf H d P G g with captured } d.schedule k.body s = .ok () s' ∧
      Device.groupWrites { contextOf H d P G g with captured } d.schedule k.body s = out ∧
      out.Perm ((Coverage.turns P G g (op.grid.coverage.rounds ds.prod P G g)).flatMap (op.visit H pattern ds)) ∧
      s'.global = (Team.reach H (past ++ out)).global := by
  obtain ⟨n, body, results, C, hprivate, hbody⟩ := hk.codes
  have hstore : Store.ofGlobal s.global = Team.reach H past := by
    rw [hs]
    refine (Store.puts_ofGlobal fun w hw => ?_).symm
    obtain ⟨f, hf⟩ := hstores.mem_iff.mp (hpast w hw)
    exact (slot_of_mem_visit hf).1
  have leads := leads_code (op.crew hstores P hsized.threads g) henv C hpast hsized hg hgrid
  rw [← hstore] at leads
  obtain ⟨s', out, hrun, hwrites, hout, hglobal⟩ :=
    runGroup_of_leads rfl rfl rfl hsized.groupSize.fits hprivate hbody hcaptured leads
  refine ⟨s', out, hrun, hwrites, hout, ?_⟩
  rw [hglobal, hstore, Team.reach, Team.reach, Store.puts_append]

/-- The kernel of a map is launched with the grid of the map and what the host has. -/
theorem Sized.context_eq (hsized : op.Sized H P G) (hnum : k.numGroups = op.grid.groupCount)
    (hwidth : k.groupSize = op.grid.groupWidth) {captured : Table Value}
    (hcaptures : k.captures.foldlM (Device.capture H.host H.memory) {} = .ok captured) :
    d.context H.host H.memory k = .ok { contextOf H d P G 0 with captured } := by
  have hgroups : k.numGroups.evalInt H.host = .ok (Int64.ofNat P) := by
    rw [hnum, evalInt, hsized.hostGroups.eval_nat]
  have hthreads : k.groupSize.evalInt H.host = .ok (Int64.ofNat G) := by
    rw [hwidth, evalInt, hsized.hostThreads.eval_nat]
  have hP : (Int64.ofNat P).toInt = P := toInt_ofNat_of_fits hsized.numGroups.fits
  have hG : (Int64.ofNat G).toInt = G := toInt_ofNat_of_fits hsized.groupSize.fits
  exact Device.context_eq_ok.mpr ⟨captured, Int64.ofNat P, Int64.ofNat G, hcaptures, hgroups, hthreads, by omega,
    by have := hsized.threads; omega, rfl⟩

/-- The writes of the points of a map in their order, each with the group whose turn the point is. -/
def shares (op : SegOp) (H : Surroundings) (pattern : List PatElem) (ds : List Nat) (P G : Nat) : List (Nat × Write) :=
  (List.range ds.prod).flatMap fun f => (op.visit H pattern ds f).map (f / G % P, ·)

theorem map_shares : (op.shares H pattern ds P G).map (·.2) = (List.range ds.prod).flatMap (op.visit H pattern ds) := by
  rw [shares, List.map_flatMap]
  refine List.flatMap_congr fun f _ => ?_
  rw [List.map_map]
  exact List.map_id _

/-- The launch of the kernel of a map makes each write of each point once, in the group whose turn the point is, and no
    other writes. -/
theorem runKernel_of_stores (hk : op.Runs setting H pattern k) (henv : setting.env = H.env)
    (hstores : op.Stores H pattern ds d.loopLimit ws) (hsized : op.Sized H P G)
    (hgrid : op.grid.coverage.Suffices ds.prod P G d.loopLimit) (stats : LaunchStats) :
    ∃ s', d.runKernel H.host k ⟨H.memory, stats⟩ = .ok () s' ∧
      (d.kernelWrites H.host k ⟨H.memory, stats⟩).Perm (op.shares H pattern ds P G) ∧
      s'.global = ((Store.ofGlobal H.memory).puts ws).global := by
  obtain ⟨captured, hcaptures, hagrees⟩ := hk.captures
  have hcontext := hsized.context_eq (d := d) hk.numGroups hk.groupSize hcaptures
  have hP : (Int64.ofNat P).toInt = P := toInt_ofNat_of_fits hsized.numGroups.fits
  let turn (g : Nat) : List (Nat × Write) :=
    ((Coverage.turns P G g (op.grid.coverage.rounds ds.prod P G g)).flatMap (op.visit H pattern ds)).map (g, ·)
  -- The groups that are through have made the writes of their turns.
  obtain ⟨s', hrun, hwrites, hs'⟩ := Device.runKernel_of_groups stats hcontext hP
    (fun g past => past.Perm ((List.range g).flatMap turn)) (.refl _) fun g hg past s hpast hs => by
      have before : ∀ w ∈ past.map (·.2), w ∈ ws := fun w hw => by
        obtain ⟨p, hp, rfl⟩ := List.mem_map.mp hw
        obtain ⟨g', -, hp⟩ := List.mem_flatMap.mp (hpast.mem_iff.mp hp)
        obtain ⟨w, hvisit, rfl⟩ := List.mem_map.mp hp
        obtain ⟨f, -, hvisit⟩ := List.mem_flatMap.mp hvisit
        exact hstores.mem_iff.mpr ⟨f, hvisit⟩
      obtain ⟨s', out, hgroup, rfl, hout, hglobal⟩ := runGroup_visits hk henv hstores hsized hgrid before hagrees hg hs
      refine ⟨s', hgroup, ?_, ?_⟩
      · rw [List.range_succ, List.flatMap_append, List.flatMap_singleton]
        exact hpast.append (hout.map _)
      · rw [hglobal, Team.reach, Device.written, List.map_append, List.map_map]
        congr 4
        exact (List.map_id _).symm
  have perm := hwrites.trans (hgrid.perm_groups hsized.groups hsized.threads fun f hf => visit_of_le hf)
  refine ⟨s', hrun, perm, ?_⟩
  -- The order of the writes does not matter, as each slot is written once.
  have members : ∀ w, w ∈ (d.kernelWrites H.host k ⟨H.memory, stats⟩).map (·.2) ↔ w ∈ ws := fun w => by
    rw [hstores.writes_eq, ← map_shares (P := P) (G := G)]
    exact (perm.map _).mem_iff
  refine hs'.trans (congrArg Store.global (Store.puts_congr members fun w hw w' hw' => ?_))
  exact hstores.eq_of_slot ((members w).mp hw) ((members w').mp hw')

end Segmented

/-! ### The program of a map -/

/-- A module of one operation is lowered as the operation is. -/
theorem Module.lower_single {m : Module} {config : Config} {p : Program} {pattern : List PatElem} {op : SegOp}
    (hm : m.ops = [.seg pattern op]) (hp : m.lower config = .ok p) :
    ∃ σ, Lowering.segmented pattern op ⟨config, m.env⟩ {} = .ok ((), σ) ∧ p = σ.program := by
  obtain ⟨σ, hrun, rfl⟩ := Module.lower_eq_ok.mp hp
  rw [hm] at hrun
  obtain ⟨_, σ₁, hop, hend⟩ := Lowering.bind_eq_ok.mp hrun
  obtain ⟨-, rfl⟩ := Lowering.pure_eq_ok.mp hend
  exact ⟨σ, hop, rfl⟩

/-- The program of a map has one kernel, which runs its code. -/
theorem Module.runs_of_lower {m : Module} {config : Config} {p : Program} {pattern : List PatElem} {op : SegOp}
    {H : Surroundings} (hm : m.ops = [.seg pattern op]) (hlevel : op.grid.level = .thread) (hkind : op.kind = .map)
    (henv : H.env = m.env) (hop : op.Regular H.env pattern) (hH : H.Complete) (hp : m.lower config = .ok p) :
    ∃ k, p = { kernels := [k] } ∧ op.Runs ⟨config, m.env⟩ H pattern k := by
  obtain ⟨σ, hmap, rfl⟩ := m.lower_single hm hp
  rw [Lowering.segmented, hlevel, hkind] at hmap
  exact Segmented.mapByThreads_runs hop.wellNamed hH henv.symm rfl hmap

namespace Device

/-- What surrounds the kernels of a program that a device runs. -/
def surroundings (d : Device) (env : HostEnv) (p : Program) : Surroundings := ⟨env, ((d.hostEnv p)[·]?), d.global⟩

/-- A program of one kernel runs as its kernel does. -/
theorem run_of_runKernel {d : Device} {p : Program} {k : Kernel} (hp : p = { kernels := [k] }) {s : Progress}
    (h : d.runKernel ((d.hostEnv p)[·]?) k ⟨d.global, {}⟩ = .ok () s) :
    d.run p = (.ok s.stats, { d with global := s.global }) := by
  have hprogram : d.runProgram p { global := d.global } = .ok () s := by
    unfold runProgram
    rw [hp] at h ⊢
    exact Run.bind_eq_ok.mpr ⟨(), { global := d.global }, rfl, Run.bind_eq_ok.mpr ⟨(), s, h, rfl⟩⟩
  unfold run
  rw [hprogram]

/-- A device that runs the program of a map stores what the map stores, whatever the grid of threads. -/
theorem run_stores {m : Module} {config : Config} {p : Program} {d : Device} {pattern : List PatElem} {op : SegOp}
    {ds : List Nat} {ws : List Write} {P G : Nat} (hm : m.ops = [.seg pattern op]) (hlevel : op.grid.level = .thread)
    (hkind : op.kind = .map) (hp : m.lower config = .ok p) (hhost : (d.surroundings m.env p).Complete)
    (hstores : op.Stores (d.surroundings m.env p) pattern ds d.loopLimit ws)
    (hsized : op.Sized (d.surroundings m.env p) P G) (hgrid : op.grid.coverage.Suffices ds.prod P G d.loopLimit) :
    ∃ k stats, p.kernels = [k] ∧
      d.run p = (.ok stats, { d with global := ((Store.ofGlobal d.global).puts ws).global }) ∧
      (d.kernelWrites ((d.hostEnv p)[·]?) k ⟨d.global, {}⟩).Perm
        (op.shares (d.surroundings m.env p) pattern ds P G) := by
  obtain ⟨k, hkernels, hk⟩ := Module.runs_of_lower hm hlevel hkind rfl hstores.housed.regular hhost hp
  obtain ⟨s, hrun, hperm, hglobal⟩ := Segmented.runKernel_of_stores hk rfl hstores hsized hgrid {}
  refine ⟨k, s.stats, by rw [hkernels], ?_, hperm⟩
  rw [run_of_runKernel hkernels hrun, hglobal]
  rfl

/-- A device that runs the program of a map makes the writes that the map means, whatever the grid of threads. Each
    write of each point is made once, in the group whose turn the point is, and no other writes are made. -/
theorem run_map {m : Module} {config : Config} {p : Program} {d : Device} {pattern : List PatElem} {op : SegOp}
    {ds : List Nat} {ws : List Write} {P G : Nat} (hm : m.ops = [.seg pattern op]) (hlevel : op.grid.level = .thread)
    (hkind : op.kind = .map) (hp : m.lower config = .ok p) (hhost : (d.surroundings m.env p).Complete)
    (hmeans : op.Means (d.surroundings m.env p) pattern ds d.loopLimit ws)
    (hsized : op.Sized (d.surroundings m.env p) P G) (hgrid : op.grid.coverage.Suffices ds.prod P G d.loopLimit) :
    ∃ k stats, p.kernels = [k] ∧
      d.run p = (.ok stats, { d with global := ((Store.ofGlobal d.global).puts ws).global }) ∧
      ((d.kernelWrites ((d.hostEnv p)[·]?) k ⟨d.global, {}⟩).map (·.2)).Perm ws ∧
      (d.kernelWrites ((d.hostEnv p)[·]?) k ⟨d.global, {}⟩).Perm
        (op.shares (d.surroundings m.env p) pattern ds P G) := by
  obtain ⟨k, stats, hkernels, hrun, hperm⟩ := run_stores hm hlevel hkind hp hhost hmeans.stores hsized hgrid
  refine ⟨k, stats, hkernels, hrun, ?_, hperm⟩
  rw [hmeans.writes_eq, ← Segmented.map_shares (P := P) (G := G)]
  exact hperm.map _

/-! ### A map that is run -/

/-- The rows of `xs` are mirrored, and the elements doubled, by two groups of two threads. -/
def mirrorOp : SegOp where
  kind := .map
  grid := ⟨.thread, .int 2, .int 2, .virtualize⟩
  space := ⟨"p", [("i", .int 2), ("j", .int 3)]⟩
  stms := [.index "x" .i64 "xs" [.var "i", .binary .sub (.int 2) (.var "j")],
    .compute "y" .i64 (.binary .add (.var "x") (.var "x"))]
  results := [.returns (.var "y")]

def mirrorEnv : HostEnv where
  arrays := (({} : Table _).insert "xs" (.i64, [.int 2, .int 3])).insert "ys" (.i64, [.int 2, .int 3])

def mirrorMemory : Memory :=
  (({} : Memory).insert "xs" (.ofValues .i64 [.i64 1, .i64 2, .i64 3, .i64 4, .i64 5, .i64 6])).insert "ys"
    (.zeroed .i64 6)

/-- What surrounds the map, where the host has no variables. -/
def mirrorHost : Surroundings := ⟨mirrorEnv, (({} : Table Value)[·]?), mirrorMemory⟩

theorem mirror_arrays {x : Ident} {r : ScalarType × List Operand} (h : mirrorEnv.arrays[x]? = some r) :
    (x = "xs" ∨ x = "ys") ∧ r = (.i64, [.int 2, .int 3]) := by
  unfold mirrorEnv at h
  dsimp only at h
  rw [Table.getElem?_insert, Table.getElem?_insert] at h
  split at h
  · exact ⟨Or.inr (by simp_all), (Option.some.inj h).symm⟩
  · split at h
    · exact ⟨Or.inl (by simp_all), (Option.some.inj h).symm⟩
    · simp at h

theorem mirror_unknown (x : Ident) : ¬mirrorEnv.Known x := by
  simp [HostEnv.Known, mirrorEnv]

theorem mirror_extents :
    List.Forall₂ (IsInt mirrorHost.scope) [(Operand.int 2).toExp, (Operand.int 3).toExp] (ints [2, 3]) :=
  .cons (IsInt.int 2) (.cons (IsInt.int 3) .nil)

theorem mirror_mem_arrays {x : Ident} (h : x ∈ mirrorEnv.arrays) : x = "xs" ∨ x = "ys" :=
  (mirror_arrays (Std.ExtTreeMap.getElem?_eq_some_getElem h)).1

theorem mirror_regular : Segmented.Regular mirrorOp mirrorEnv [⟨"ys", .i64, [.int 2, .int 3]⟩] where
  nodup := by decide
  unknown x _ := mirror_unknown x
  indices := by decide
  plain := by simp [mirrorOp, BodyStm.Plain, Exp.occurrences, Exp.int]
  literals := by simp [mirrorOp, BodyStm.literal?]
  names x hx := not_generated (by revert x; decide)
  hostNames x hx := by
    have arrays : x ∈ mirrorEnv.arrays := by
      rcases hx with h | h | h | ⟨array, type, shape, h, e, he, hx⟩
      · exact absurd (Or.inl h) (mirror_unknown x)
      · exact absurd (Or.inr h) (mirror_unknown x)
      · exact h
      · cases (mirror_arrays h).2
        simp only [List.mem_cons, List.not_mem_nil, or_false] at he
        rcases he with rfl | rfl <;> simp [Operand.vars, Operand.int] at hx
    rcases mirror_mem_arrays arrays with rfl | rfl <;> exact not_generated (by decide)

theorem mirror_complete : mirrorHost.Complete where
  scalars x type h := by simp [mirrorHost, mirrorEnv] at h
  arrays x hx := by rcases mirror_mem_arrays hx with rfl | rfl <;> decide +kernel
  apart x _ := mirror_unknown x

def mirror : Module := ⟨mirrorEnv, [.seg [⟨"ys", .i64, [.int 2, .int 3]⟩] mirrorOp]⟩

/-- What the map writes to `ys`. -/
def mirrorWrites : List Write := [6, 4, 2, 12, 10, 8].mapIdx fun i v => ⟨⟨.global, "ys", i⟩, v⟩

theorem mirror_size : Fits (([2, 3] : List Nat).prod : Nat) := by
  unfold Fits
  decide

theorem mirror_means (limit : Nat) :
    Segmented.Means mirrorOp mirrorHost [⟨"ys", .i64, [.int 2, .int 3]⟩] [2, 3] limit mirrorWrites where
  fitting := {
    regular := mirror_regular
    extents := mirror_extents
    positive := by decide
    sizes := fun array type shape es h hes => by
      cases (mirror_arrays h).2
      have : es = [2, 3] := Option.some.inj (hes.symm.trans (intsAt?_eq_some.mpr mirror_extents))
      exact this ▸ mirror_size
    placed := fun f hf ρ hρ r hr type shape h => by
      cases (mirror_arrays h).2
      have none : ρ.arrays "y" = none := BodyStm.arrays_of_evalAll hρ (by simp [mirrorOp, BodyStm.literal?])
      obtain rfl := List.mem_singleton.mp hr
      have hvalue : ρ.array? (.var "y") = Option.none := by rw [Env.array?, none, Option.map_none]
      show (BodyResult.returns (.var "y")).Placed _ _ _ _ _
      unfold BodyResult.Placed
      dsimp only
      rw [hvalue]
      exact ⟨mirror_extents, mirror_size, by simp⟩ }
  fits := mirror_size
  writes := by decide +kernel
  apart := by decide
  room := by
    have types : ∀ w ∈ mirrorWrites, (Store.ofGlobal mirrorMemory).layout? .global w.slot.array = some (.i64, 6) ∧
        w.slot.position < 6 := by decide +kernel
    intro w hw type shape h
    cases (mirror_arrays h).2
    exact ⟨.i64, 6, (types w hw).1, rfl, (types w hw).2⟩

theorem mirror_sized : Segmented.Sized mirrorOp mirrorHost 2 2 :=
  ⟨by decide, by decide, IsInt.int 2, IsInt.int 2, IsInt.int 2, IsInt.int 2⟩

/-- The second of three logical groups begins in the middle of the first row. -/
theorem mirror_computed :
    let d : Device := { wave := 1, checkRaces := true, global := mirrorMemory }
    ∃ p stats d', mirror.lower {} = .ok p ∧ d.run p = (.ok stats, d') ∧
      d'.global["ys"]?.map Buffer.values = some [.i64 6, .i64 4, .i64 2, .i64 12, .i64 10, .i64 8] := by
  intro d
  obtain ⟨p, hp, htuning, hconstants⟩ : ∃ p ∈ (mirror.lower {}).toOption, p.tuning.isEmpty ∧ (constants p).isEmpty := by
    decide +kernel
  have hhost : d.surroundings mirror.env p = mirrorHost := by
    unfold surroundings hostEnv
    rw [List.isEmpty_iff.mp htuning, List.isEmpty_iff.mp hconstants]
    rfl
  have hgrid : mirrorOp.grid.coverage.Suffices [2, 3].prod 2 2 d.loopLimit :=
    ⟨by unfold Fits; decide, by unfold Fits; decide, by decide⟩
  obtain ⟨k, stats, -, hrun, -, -⟩ := run_map rfl rfl rfl (ok_of_toOption hp) (hhost ▸ mirror_complete)
    (hhost ▸ mirror_means d.loopLimit) (hhost ▸ mirror_sized) hgrid
  exact ⟨p, stats, _, ok_of_toOption hp, hrun, by decide +kernel⟩

/-- Four threads store their indices. The index has the name of the flat index. -/
def oneName : Module where
  env := { arrays := ({} : Table _).insert "ys" (.i64, [.int 4]) }
  ops := [.seg [⟨"ys", .i64, [.int 4]⟩] {
    kind := .map
    grid := ⟨.thread, .int 1, .int 4, .direct⟩
    space := ⟨"i", [("i", .int 4)]⟩
    stms := []
    results := [.returns (.var "i")] }]

/-- The index is reset before it is computed from itself, and all threads store to the first element. -/
theorem oneName_goes_wrong :
    let m := oneName
    let d : Device := { wave := 1, global := ({} : Memory).insert "ys" (.ofValues .i64 [.i64 9, .i64 9, .i64 9, .i64 9]) }
    let H : Surroundings := ⟨m.env, fun _ => none, d.global⟩
    (∃ op pattern, m.ops = [.seg pattern op] ∧
      op.writes H pattern [4] = some ([0, 1, 2, 3].mapIdx fun i v => ⟨⟨.global, "ys", i⟩, v⟩)) ∧
    ∃ p, m.lower {} = .ok p ∧ (d.run p).1.isOk = true ∧
      (d.run p).2.global["ys"]?.map Buffer.values = some [.i64 0, .i64 9, .i64 9, .i64 9] := by
  intro m d H
  refine ⟨⟨_, _, rfl, by decide +kernel⟩, ?_⟩
  obtain ⟨p, hp, hok, hvalues⟩ : ∃ p ∈ (m.lower {}).toOption, (d.run p).1.isOk = true ∧
      (d.run p).2.global["ys"]?.map Buffer.values = some [.i64 0, .i64 9, .i64 9, .i64 9] := by decide +kernel
  exact ⟨p, ok_of_toOption hp, hok, hvalues⟩

end Device
end SegKernel
