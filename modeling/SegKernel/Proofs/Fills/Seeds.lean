import Mathlib.Logic.Function.Basic
import SegKernel.Proofs.Fills.Operations
import SegKernel.Proofs.Footprints.Launches
import SegKernel.Proofs.Maps.Frames

/-! The initial contents of histograms. Each destination is filled by a copy of its own, one after another, so a copy
    finds what the copies before it left. The destinations then hold what all initial arrays held at the start, if no
    initial array was filled before it is copied. -/

namespace SegKernel
open Lowering Exp

/-! ### Assignments in turn -/

/-- Assignments one after another: each gives its target what its source holds by then. -/
def assignInTurn {κ γ : Type} [DecidableEq κ] (moves : List (κ × κ)) (c : κ → γ) : κ → γ :=
  moves.foldl (fun c move => Function.update c move.1 (c move.2)) c

section Assignments
variable {κ γ : Type} [DecidableEq κ] {moves : List (κ × κ)} {c : κ → γ}

theorem assignInTurn_of_notMem :
    ∀ {moves : List (κ × κ)} {c : κ → γ} {a : κ}, a ∉ moves.map (·.1) → assignInTurn moves c a = c a
  | [], _, _, _ => rfl
  | move :: moves, c, a, h => by
    rw [List.map_cons, List.mem_cons, not_or] at h
    refine (assignInTurn_of_notMem h.2).trans ?_
    exact Function.update_of_ne h.1 _ _

/-- If no source was assigned before, unless to itself, then all targets get what the sources held at the start. -/
theorem assignInTurn_of_apart : ∀ {moves : List (κ × κ)} {c : κ → γ}, (moves.map (·.1)).Nodup →
    (moves.Pairwise fun q r => q.2 = q.1 ∨ r.2 ≠ q.1) → ∀ move ∈ moves, assignInTurn moves c move.1 = c move.2
  | [], _, _, _, _, h => nomatch h
  | move :: moves, c, hdistinct, hapart, q, hq => by
    obtain ⟨hfirst, hdistinct⟩ := List.nodup_cons.mp hdistinct
    obtain ⟨hlater, hapart⟩ := List.pairwise_cons.mp hapart
    obtain rfl | hq := List.mem_cons.mp hq
    · refine (assignInTurn_of_notMem hfirst).trans ?_
      exact Function.update_self _ _ _
    · refine (assignInTurn_of_apart (c := Function.update c move.1 (c move.2)) hdistinct hapart q hq).trans ?_
      obtain hself | hne := hlater q hq
      · rw [hself, Function.update_eq_self]
      · exact Function.update_of_ne hne _ _

end Assignments

/-- The destinations of all components of histograms, with their initial arrays. -/
def Histogram.seeds (hs : List Histogram) (pattern : List PatElem) : List (Ident × Ident) :=
  (pattern.map (·.name)).zip (hs.flatMap (·.dests))

theorem Histogram.seeds_cons (h : Histogram) (hs : List Histogram) (pattern : List PatElem) :
    seeds (h :: hs) pattern = ((pattern.take h.dests.length).zip h.dests).map (fun pair => (pair.1.name, pair.2)) ++
      seeds hs (pattern.drop h.dests.length) := by
  unfold seeds
  rw [List.flatMap_cons]
  generalize h.dests = dests, hs.flatMap (·.dests) = rest
  induction dests generalizing pattern with
  | nil => simp
  | cons dest dests ih =>
    cases pattern with
    | nil => simp
    | cons p pattern => simp [ih]

/-! ### Lowering -/

namespace Lowering
variable {setting : Setting} {σ σ' σ₁ : Session} {moves : List (Ident × Ident)}

/-- Copies are added one after another, for all but the arrays that are their own initial ones. -/
inductive Copies (setting : Setting) : List (Ident × Ident) → Session → Session → Prop
  | nil {σ : Session} : Copies setting [] σ σ
  | same {a : Ident} {moves : List (Ident × Ident)} {σ σ' : Session} (rest : Copies setting moves σ σ') :
    Copies setting ((a, a) :: moves) σ σ'
  | copy {a b : Ident} {moves : List (Ident × Ident)} {σ σ₁ σ' : Session} {u : Unit}
    (h : hostOp (.copy a b) setting σ = .ok (u, σ₁))
    (rest : Copies setting moves σ₁ σ') : Copies setting ((a, b) :: moves) σ σ'

namespace Copies

theorem append {more : List (Ident × Ident)} (h : Copies setting moves σ σ₁) (h' : Copies setting more σ₁ σ') :
    Copies setting (moves ++ more) σ σ' := by
  induction h with
  | nil => exact h'
  | same _ ih => exact .same (ih h')
  | copy hcopy _ ih => exact .copy hcopy (ih h')

theorem begins (h : Copies setting moves σ σ') : σ.program.Begins σ'.program := by
  induction h with
  | nil => exact .refl _
  | same _ ih => exact ih
  | copy hcopy _ ih => exact (Grows.hostOp _ _ _ _ hcopy).1.trans ih

end Copies

theorem copies_of_seedGlobal {p : PatElem} {initial : Ident} {span : Option Span} {v : View}
    (h : seedGlobal p initial span setting σ = .ok (v, σ')) : Copies setting [(p.name, initial)] σ σ' := by
  unfold seedGlobal at h
  by_cases hsame : p.name = initial
  · subst hsame
    simp only [ne_eq, not_true_eq_false, if_false, bind_eq_ok, pure_eq_ok, globalArray_eq_ok] at h
    obtain ⟨_, _, ⟨-, rfl⟩, _, _, ⟨-, rfl⟩, -, rfl⟩ := h
    exact .same .nil
  · simp only [ne_eq, hsame, not_false_eq_true, if_true, bind_eq_ok, pure_eq_ok, globalArray_eq_ok] at h
    obtain ⟨_, _, hcopy, _, _, ⟨-, rfl⟩, -, rfl⟩ := h
    exact .copy hcopy .nil

theorem copies_of_mapM {span : Option Span} : ∀ {pairs : List (PatElem × Ident)} {views : List View} {σ σ' : Session},
    (pairs.mapM fun pair => seedGlobal pair.1 pair.2 span) setting σ = .ok (views, σ') →
      Copies setting (pairs.map fun pair => (pair.1.name, pair.2)) σ σ'
  | [], _, _, _, h => by
    rw [List.mapM_nil] at h
    obtain ⟨-, rfl⟩ := pure_eq_ok.mp h
    exact .nil
  | _ :: _, _, _, _, h => by
    rw [List.mapM_cons] at h
    obtain ⟨_, _, hfirst, h⟩ := bind_eq_ok.mp h
    obtain ⟨_, _, hrest, h⟩ := bind_eq_ok.mp h
    obtain ⟨-, rfl⟩ := pure_eq_ok.mp h
    exact (copies_of_seedGlobal hfirst).append (copies_of_mapM hrest)

theorem copies_of_seedGlobals {span : Option Span} :
    ∀ {hs : List Histogram} {pattern : List PatElem} {views : List (List View)}
    {σ σ' : Session}, seedGlobals span hs pattern setting σ = .ok (views, σ') → Copies setting
    (Histogram.seeds hs pattern) σ σ'
  | [], _, _, _, _, h => by
    obtain ⟨-, rfl⟩ := pure_eq_ok.mp h
    rw [Histogram.seeds, List.flatMap_nil, List.zip_nil_right]
    exact .nil
  | hist :: hs, pattern, _, σ, σ', h => by
    simp only [seedGlobals, bind_eq_ok, pure_eq_ok, inRange_eq_ok] at h
    obtain ⟨_, σ₀, hcheck, _, _, ⟨-, rfl⟩, views, σ₁, hviews, rest, σ₂, hrest, -, rfl⟩ := h
    obtain ⟨harity, rfl⟩ := check_eq_ok.mp hcheck
    rw [Histogram.seeds_cons, eq_of_beq harity]
    exact (copies_of_mapM hviews).append (copies_of_seedGlobals hrest)

/-- The kernel that fills an array with a constant accesses this array only. -/
theorem kernel_of_fillValue {view : View} {length : Exp} {v : Value} {u : Unit}
    (h : fillValue view length (.const v) setting σ = .ok (u, σ')) :
    ∃ k, σ'.program.kernels = σ.program.kernels ++ [k] ∧
      ∀ w, w ∈ k.body.loads ∨ w ∈ k.body.stores → w.array = view.array := by
  simp only [fillValue, fill, bind_eq_ok, read_eq_ok, lift_eq_ok] at h
  obtain ⟨s, σ₀, ⟨rfl, rfl⟩, r, _, ⟨hr, rfl⟩, _, σ₁, hparam, body, _, ⟨rfl, rfl⟩, h⟩ := h
  obtain ⟨rfl⟩ := hr
  obtain rfl := modify_eq_ok.mp hparam
  change emitKernel "replicate" _ _ (Fill.code "replicate" length (fun i => pure (.write view i (.const v))) σ₀.names)
    _ _ = _ at h
  obtain ⟨k, -, -, -, hhoist, -, rfl⟩ := emitKernel_eq_ok h
  refine ⟨k, rfl, fun w hw => ?_⟩
  have hm : ⟨w.array, .memory⟩ ∈ (Fill.code "replicate" length (fun i => pure (.write view i (.const v)))
    σ₀.names).mentions :=
    (Stmt.mentions_hoist hhoist).mem_iff.mp (Stmt.mentions_memory.mpr ⟨w, rfl, hw⟩)
  rw [Fill.code, Stmt.mentions_block, List.flatMap_cons, List.flatMap_singleton, List.mem_append,
    Fill.mentions_entry] at hm
  obtain hm | hm := hm
  · obtain ⟨x, -, hx⟩ := List.mem_map.mp hm
    cases hx
  · rw [Fill.when_lt] at hm
    obtain ⟨w', hname, hw'⟩ := Stmt.mentions_memory.mp hm
    have hw' : w' ∈ ([] : List View) ∨ w' ∈ [view] := hw'
    obtain rfl : w' = view := by simpa using hw'
    exact hname.symm

/-- Locks are an array of their own, which is made only for a histogram that needs locks. -/
theorem array_of_globalLocks {hs : List (Histogram × AtomicUpdate)} {locking : Option Locking}
    (h : globalLocks hs setting σ = .ok (locking, σ')) : σ'.program.kernels = σ.program.kernels ∧
      (∀ l ∈ locking, (∃ n, l.locks.array = numbered "hist_locks" n) ∧ ∃ pair ∈ hs, pair.2.needsLocks = true) := by
  unfold globalLocks at h
  cases hlocked : hs.filter (·.2.needsLocks) with
  | nil =>
    rw [hlocked, List.map_nil] at h
    obtain ⟨rfl, rfl⟩ := pure_eq_ok.mp h
    exact ⟨rfl, nofun⟩
  | cons pair pairs =>
    have hpair := List.mem_filter.mp (hlocked ▸ List.mem_cons_self : pair ∈ hs.filter (·.2.needsLocks))
    rw [hlocked, List.map_cons] at h
    simp only [allocate, bind_eq_ok, read_eq_ok, lift_eq_ok, modify_eq_ok, pure_eq_ok] at h
    obtain ⟨_, _, ⟨rfl, rfl⟩, _, _, ⟨_, _, ⟨rfl, rfl⟩, _, _, rfl, rfl, rfl⟩, rfl, rfl⟩ := h
    refine ⟨rfl, ?_⟩
    rintro l ⟨⟩
    exact ⟨⟨_, rfl⟩, pair, hpair.1, hpair.2⟩

/-- The kernel that updates the buckets, once the destinations are seeded. -/
theorem kernel_of_updates {pattern : List PatElem} {op : SegOp} {hs : List Histogram} {locking : Option Locking}
    {dests : List (List View)} {updates : List AtomicUpdate} {u : Unit}
    (h : updateByThreads pattern op hs locking updates dests setting σ = .ok (u, σ')) :
    ∃ k, σ'.program.kernels = σ.program.kernels ++ [k] ∧ (∃ n, k.name = numbered "seghist" n) ∧
      σ.program.Begins σ'.program := by
  obtain ⟨_, σ₁, hstart, h₁⟩ := bind_eq_ok.mp h
  obtain ⟨-, rfl⟩ := lift_eq_ok.mp hstart
  obtain ⟨_, σ₂, hcover, h₂⟩ := bind_eq_ok.mp h₁
  obtain ⟨-, rfl⟩ := lift_eq_ok.mp hcover
  obtain ⟨_, σ₃, hbody, h₃⟩ := bind_eq_ok.mp h₂
  obtain ⟨_, σ₄, hupdates, h₄⟩ := bind_eq_ok.mp h₃
  obtain ⟨_, σ₄', hresults, h₄'⟩ := bind_eq_ok.mp h₄
  obtain ⟨_, σ₅, hmapped, h₅⟩ := bind_eq_ok.mp h₄'
  obtain ⟨-, hkernels₃, htuning₃⟩ := Spares.composable.threadBody _ _ _ _ _ hbody
  obtain ⟨-, hkernels₄, htuning₄⟩ :=
    Spares.composable.updateCode _ _ _ (fun r => Spares.composable.plainExp r _ _) _ _ _ _ _
    (.inl Spares.ignoresBreaks) _ _ _ hupdates
  obtain ⟨-, hkernels₄', htuning₄'⟩ := Spares.composable.mappedResults (.inl Spares.ignoresBreaks) _ _ _ hresults
  obtain ⟨-, hkernels₅, htuning₅⟩ := Spares.composable.threadResults _ _ _ _ _ _ hmapped
  have hkernels : σ₅.program.kernels = σ.program.kernels :=
    hkernels₅.trans (hkernels₄'.trans (hkernels₄.trans hkernels₃))
  have htuning : σ₅.program.tuning = σ.program.tuning := htuning₅.trans (htuning₄'.trans (htuning₄.trans htuning₃))
  obtain ⟨k, hname, -, -, -, -, rfl⟩ := emitKernel_eq_ok h₅
  refine ⟨k, by rw [hkernels], ⟨_, hname⟩, ⟨?_, fun t ht => ?_⟩⟩
  · exact hkernels ▸ List.prefix_append _ _
  · exact htuning ▸ ht

/-- The kernels of a histogram: the copies to its destinations, at most one kernel that only accesses locks, and the one
    that updates the buckets. -/
theorem kernels_of_histogramByThreads {pattern : List PatElem} {op : SegOp} {hs : List Histogram} {u : Unit}
    (h : histogramByThreads pattern op hs setting σ = .ok (u, σ')) :
    ∃ σ₁ σ₂ locks k, σ₁.program.kernels = σ.program.kernels ∧ Copies setting (Histogram.seeds hs pattern) σ₁ σ₂ ∧
      (∀ l ∈ locks, (∀ w, w ∈ l.body.loads ∨ w ∈ l.body.stores → ∃ n, w.array = numbered "hist_locks" n) ∧
        ∃ hist ∈ hs, (hist.lambda.atomicUpdate setting.config.atomics).needsLocks = true) ∧
      σ'.program.kernels = σ₂.program.kernels ++ locks ++ [k] ∧ (∃ n, k.name = numbered "seghist" n) ∧
      σ₂.program.Begins σ'.program := by
  have values : ∀ results : List BodyResult, Spares setting (results.mapM (histogramValue op.span)) fun _ => True :=
    fun _ => Spares.composable.mapM fun r _ => Spares.composable.plainExp r _ _
  unfold histogramByThreads at h
  obtain ⟨_, _, hcounts, h₀⟩ := bind_eq_ok.mp h
  obtain ⟨-, rfl⟩ := check_eq_ok.mp hcounts
  obtain ⟨_, _, hrange, h₁⟩ := bind_eq_ok.mp h₀
  obtain ⟨-, rfl⟩ := inRange_eq_ok.mp hrange
  obtain ⟨_, σ₁, hbins, h₁'⟩ := bind_eq_ok.mp h₁
  obtain ⟨_, _, hrange', h₂⟩ := bind_eq_ok.mp h₁'
  obtain ⟨-, rfl⟩ := inRange_eq_ok.mp hrange'
  obtain ⟨_, σ₂, hvalues, h₂'⟩ := bind_eq_ok.mp h₂
  obtain ⟨used, _, hread, h₃⟩ := bind_eq_ok.mp h₂'
  obtain ⟨hused, rfl⟩ := read_eq_ok.mp hread
  subst used
  obtain ⟨locking, σ₃, hlocking, h₄⟩ := bind_eq_ok.mp h₃
  obtain ⟨dests, σ₄, hdests, h₅⟩ := bind_eq_ok.mp h₄
  obtain ⟨-, hkernels₁, -⟩ := values _ _ _ _ hbins
  obtain ⟨-, hkernels₂, -⟩ := values _ _ _ _ hvalues
  obtain ⟨hkernels₃, hlocks⟩ := array_of_globalLocks hlocking
  -- Until the locks stand, no kernel has been added.
  have hkernels := hkernels₃.trans (hkernels₂.trans hkernels₁)
  cases locking with
  | none =>
    obtain ⟨k, hk, hname, hbegins⟩ := kernel_of_updates h₅
    exact ⟨σ₃, σ₄, [], k, hkernels, copies_of_seedGlobals hdests, nofun, by rw [hk, List.append_nil], hname, hbegins⟩
  | some locking =>
    obtain ⟨_, σ₅, hfill, h₆⟩ := bind_eq_ok.mp h₅
    obtain ⟨⟨n, hn⟩, ⟨_, _⟩, hpair, hneeds⟩ := hlocks locking rfl
    rw [← List.map_prod_left_eq_zip] at hpair
    obtain ⟨hist, hhist, he⟩ := List.mem_map.mp hpair
    obtain ⟨rfl, rfl⟩ := Prod.mk.inj he
    obtain ⟨l, hl, haccess⟩ := kernel_of_fillValue hfill
    obtain ⟨k, hk, hname, hbegins⟩ := kernel_of_updates h₆
    refine ⟨σ₃, σ₄, [l], k, hkernels, copies_of_seedGlobals hdests, ?_, by rw [hk, hl], hname, ?_⟩
    · exact List.forall_mem_singleton.mpr ⟨fun w hw => ⟨n, (haccess w hw).trans hn⟩, hist, hhist, hneeds⟩
    · exact ((Grows.fill _ _ _ _ _ _ hfill).1).trans hbegins

end Lowering

namespace Device
variable {d : Device} {env : HostEnv} {config : Config} {p : Program} {G : Nat}

/-- A device holds all elements of a declared array. -/
structure Holds (d : Device) (env : HostEnv) (p : Program) (array : Ident) (type : ScalarType) (ds : List Nat) :
    Prop where
  declared : ∃ shape, env.arrays[array]? = some (type, shape) ∧
    List.Forall₂ (fun o (n : Nat) => IsInt (d.surroundings env p).scope o.toExp n) shape ds
  length : Fill.HasLength (d.surroundings env p) array type ds.prod

/-- An array can be copied to another: both have elements of the same type, and equally many of them, and the index of
    no thread overflows. The extents may differ. -/
def Copyable (d : Device) (env : HostEnv) (p : Program) (G : Nat) (move : Ident × Ident) : Prop :=
  ∃ type ds, d.Holds env p move.1 type ds ∧ (∃ shape, env.arrays[move.2]? = some (type, shape)) ∧
    Fill.HasLength (d.surroundings env p) move.2 type ds.prod ∧ Fits ((ds.prod + G : Nat) : Int)

/-- The elements of all arrays in memory. -/
def contents (m : Memory) : Ident → Option (List Value) := fun array => (m[array]?).map Buffer.values

theorem values_ofValues {type : ScalarType} {vs : List Value} (h : ∀ v ∈ vs, v.type = type) :
    (Buffer.ofValues type vs).values = vs := by
  unfold Buffer.values Buffer.ofValues
  dsimp only
  rw [List.map_map]
  refine (List.map_congr_left fun v hv => ?_).trans (List.map_id vs)
  rw [Function.comp_apply, ← h v hv, Value.ofBits_toBits, id]

/-- A list whose elements are known one by one. -/
theorem map_range_eq {vs : List Value} {n : Nat} {v : Nat → Value} (hn : vs.length = n)
    (h : ∀ i < n, vs[i]? = some (v i)) :
    (List.range n).map v = vs := by
  refine List.ext_getElem? fun i => ?_
  obtain hi | hi := Nat.lt_or_ge i n
  · simp [hi, h i hi]
  · simp [hi, hn]

/-- One copy gives an array the elements of the other. -/
theorem run_copy {σ σ' : Session} {u : Unit} {dest source : Ident}
    (hop : hostOp (.copy dest source) ⟨config, env⟩ σ = .ok (u, σ')) (hbegins : σ'.program.Begins p)
    (hfaithful : p.Faithful ⟨config, env⟩) (hhost : (d.surroundings env p).Complete)
    (hnames : ∀ x, env.Known x → ¬Generated x) (hparam : Launch.sizeParam "copy" ∉ env.constants)
    (hgroup : d.Tuned config.sizes (Launch.sizeParam "copy") G) (hG : 0 < G)
    (hcopy : d.Copyable env p G (dest, source)) :
    ∃ k, σ'.program.kernels = σ.program.kernels ++ [k] ∧ ∀ stats, ∃ type vs s',
      d.runKernel ((d.hostEnv p)[·]?) k ⟨d.global, stats⟩ = .ok () s' ∧
        (d.global[source]?).map Buffer.values = some vs ∧
      (∀ v ∈ vs, v.type = type) ∧ Fill.HasLength (d.surroundings env p) dest type vs.length ∧
      s'.global = d.global.insert dest (.ofValues type vs) := by
  obtain ⟨type, ds, ⟨⟨shape, hshape, hextents⟩, hlength⟩, ⟨shape', hsource⟩, hlength', hfits⟩ := hcopy
  obtain ⟨b, hb, hlayout⟩ := Option.map_eq_some_iff.mp hlength'
  obtain ⟨htype, hsize⟩ := Prod.mk.inj hlayout
  obtain ⟨k, hkernels, hk⟩ := run_loweredFill hop hbegins hfaithful hhost hnames hparam
    (.copy hsource hb htype hsize) hshape hextents hlength hgroup hG hfits
  refine ⟨k, hkernels, fun stats => ?_⟩
  obtain ⟨v, s', hv, hrun, -, hglobal⟩ := hk stats
  have hn : b.values.length = ds.prod := by
    unfold Buffer.values
    rw [List.length_map, Array.length_toList, hsize]
  refine ⟨type, b.values, s', hrun, congrArg (Option.map Buffer.values) hb, ?_, ?_, ?_⟩
  · intro v hv
    obtain ⟨x, -, rfl⟩ := List.mem_map.mp hv
    rw [Value.type_ofBits, htype]
  · rw [hn]
    exact hlength
  · rw [hglobal, map_range_eq hn hv]

theorem Copyable.insert {dest : Ident} {type : ScalarType} {vs : List Value} {move : Ident × Ident}
    (h : d.Copyable env p G move) (hlayout : Fill.HasLength (d.surroundings env p) dest type vs.length) :
    ({ d with global := d.global.insert dest (.ofValues type vs) } : Device).Copyable env p G move := by
  have layout : ∀ x, (Store.ofGlobal (d.global.insert dest (.ofValues type vs))).layout? .global x =
      (Store.ofGlobal d.global).layout? .global x := by
    intro x
    by_cases hx : dest = x
    · subst hx
      refine Eq.trans ?_ hlayout.symm
      simp [Store.layout?, Store.buffer?, Store.ofGlobal, Buffer.ofValues]
    · unfold Store.layout? Store.buffer? Store.ofGlobal
      dsimp only
      rw [Table.getElem?_insert, if_neg hx]
  obtain ⟨type', ds, ⟨hdest, hlength⟩, hsource, hlength', hfits⟩ := h
  exact ⟨type', ds, ⟨hdest, (layout _).trans hlength⟩, hsource, (layout _).trans hlength', hfits⟩

/-- Copies run one after another. -/
theorem run_copies {σ σ' : Session} {moves : List (Ident × Ident)} (h : Copies ⟨config, env⟩ moves σ σ') {d : Device}
    (hbegins : σ'.program.Begins p) (hfaithful : p.Faithful ⟨config, env⟩) (hhost : (d.surroundings env p).Complete)
    (hnames : ∀ x, env.Known x → ¬Generated x) (hparam : Launch.sizeParam "copy" ∉ env.constants)
    (hgroup : d.Tuned config.sizes (Launch.sizeParam "copy") G) (hG : 0 < G)
    (hcopies : ∀ move ∈ moves, d.Copyable env p G move) {ks : List Kernel}
    (hks : σ'.program.kernels = σ.program.kernels ++ ks) (stats : LaunchStats) :
    ∃ s, ks.forM (d.runKernel ((d.hostEnv p)[·]?)) ⟨d.global, stats⟩ = .ok () s ∧
      contents s.global = assignInTurn moves (contents d.global) := by
  induction h generalizing d ks stats with
  | nil =>
    obtain rfl := List.self_eq_append_right.mp hks
    exact ⟨_, rfl, rfl⟩
  | same rest ih =>
    obtain ⟨s, hrun, hs⟩ := ih hbegins hhost hgroup
      (fun move hmove => hcopies move (List.mem_cons_of_mem _ hmove)) hks stats
    refine ⟨s, hrun, hs.trans ?_⟩
    rw [assignInTurn, assignInTurn, List.foldl_cons, Function.update_eq_self]
  | @copy dest source _ _ _ _ _ hop rest ih =>
    obtain ⟨ks', hks'⟩ := rest.begins.kernels
    obtain ⟨k, hkernels, hk⟩ := run_copy hop (rest.begins.trans hbegins) hfaithful hhost hnames hparam hgroup hG
      (hcopies _ List.mem_cons_self)
    obtain ⟨type, vs, s₁, hrun, hvalues, htypes, hlayout, hglobal⟩ := hk stats
    obtain rfl : ks = k :: ks' := by
      rw [hks, hkernels, List.append_assoc] at hks'
      exact (List.append_cancel_left hks').symm
    -- A copy changes what its destination holds, and not which arrays there are.
    have hhost' : (({ d with global := s₁.global } : Device).surroundings env p).Complete := by
      refine ⟨hhost.scalars, fun x hx => ?_, hhost.apart⟩
      show x ∈ s₁.global
      rw [hglobal]
      exact Std.ExtTreeMap.mem_insert.mpr (Or.inr (hhost.arrays x hx))
    obtain ⟨s, hruns, hs⟩ := ih (d := { d with global := s₁.global }) hbegins hhost' hgroup
      (fun move hmove => hglobal ▸ (hcopies move (List.mem_cons_of_mem _ hmove)).insert hlayout) hks'.symm s₁.stats
    refine ⟨s, Run.bind_eq_ok.mpr ⟨(), s₁, hrun, hruns⟩, hs.trans ?_⟩
    rw [assignInTurn, assignInTurn, List.foldl_cons]
    congr 1
    funext x
    rw [Function.update_apply]
    unfold contents
    dsimp only
    rw [hglobal, Table.getElem?_insert]
    by_cases hx : dest = x
    · rw [if_pos hx, if_pos hx.symm, hvalues, Option.map_some, values_ofValues htypes]
    · rw [if_neg hx, if_neg fun e => hx e.symm]

/-- Wherever a histogram over threads stands in a module, its kernel starts with all destinations holding what their
    initial arrays held when the operation began, if no array is filled before it is copied. The kernels before it do
    not fail, but for the one that fills its locks if it has any. -/
theorem run_seeds {m : Module} {config : Config} {p : Program} {before after : List HostOp} {pattern : List PatElem}
    {op : SegOp} {hs : List Histogram} {d : Device} {G : Nat} (hm : m.ops = before ++ .seg pattern op :: after)
    (hp : m.lower config = .ok p) (hlevel : op.grid.level = .thread) (hkind : op.kind = .histogram hs)
    (hhost : (d.surroundings m.env p).Complete) (hnames : ∀ x, m.env.Known x ∨ x ∈ m.env.arrays → ¬Generated x)
    (hparam : Launch.sizeParam "copy" ∉ m.env.constants) (hgroup : d.Tuned config.sizes (Launch.sizeParam "copy") G)
    (hG : 0 < G) (hcopies : ∀ move ∈ Histogram.seeds hs pattern, d.Copyable m.env p G move)
    (hdistinct : ((Histogram.seeds hs pattern).map (·.1)).Nodup)
    (hapart : (Histogram.seeds hs pattern).Pairwise fun q r => q.2 = q.1 ∨ r.2 ≠ q.1) :
    ∃ p₀ copies locks k rest, ({ m with ops := before } : Module).lower config = .ok p₀ ∧
      p.kernels = p₀.kernels ++ copies ++ locks ++ k :: rest ∧ (∃ n, k.name = numbered "seghist" n) ∧
      ((∀ hist ∈ hs, (hist.lambda.atomicUpdate config.atomics).needsLocks = false) → locks = []) ∧
      ∀ stats, ∃ s, copies.forM (d.runKernel ((d.hostEnv p)[·]?)) ⟨d.global, stats⟩ = .ok () s ∧
        ∀ s', locks.forM (d.runKernel ((d.hostEnv p)[·]?)) s = .ok () s' →
          ∀ move ∈ Histogram.seeds hs pattern, contents s'.global move.1 = contents d.global move.2 := by
  obtain ⟨σ, σ', hbefore, hop, hbegins, hfaithful⟩ := Module.lower_split hm hp
  have hop : histogramByThreads pattern op hs ⟨config, m.env⟩ σ = .ok ((), σ') := by
    rw [hostOp, segmented, hlevel, hkind] at hop
    exact hop
  obtain ⟨σ₁, σ₂, locks, k, hstart, hcopied, hlocks, hend, hname, hbegins'⟩ := kernels_of_histogramByThreads hop
  obtain ⟨copies, hkernels⟩ := hcopied.begins.kernels
  obtain ⟨rest, hrest⟩ := hbegins.kernels
  refine ⟨σ.program, copies, locks, k, rest, hbefore, ?_, hname, fun hfree => ?_, fun stats => ?_⟩
  · rw [← hrest, hend, ← hkernels, hstart]
    simp
  · refine List.eq_nil_iff_forall_not_mem.mpr fun l hl => ?_
    obtain ⟨-, hist, hhist, hneeds⟩ := hlocks l hl
    exact absurd ((hfree hist hhist).symm.trans hneeds) (by decide)
  obtain ⟨s, hrun, hcontents⟩ :=
    run_copies hcopied (hbegins'.trans hbegins) hfaithful hhost (fun x hx => hnames x (Or.inl hx)) hparam
    hgroup hG hcopies hkernels.symm stats
  refine ⟨s, hrun, fun s' hrun' move hmove => ?_⟩
  -- The kernel for the locks fills the array of locks, which is no destination.
  have hdest : ¬∃ n, move.1 = numbered "hist_locks" n := by
    rintro ⟨n, hn⟩
    obtain ⟨_, _, ⟨⟨_, hdeclared, -⟩, -⟩, -⟩ := hcopies move hmove
    refine hnames move.1 (Or.inr ?_) ⟨"hist_locks", by simp [arrayStems], n, hn⟩
    exact Std.ExtTreeMap.mem_iff_isSome_getElem?.mpr (by rw [hdeclared, Option.isSome_some])
  have kept : s'.global[move.1]? = s.global[move.1]? :=
    runKernels_frame (M := fun x => ∃ n, x = numbered "hist_locks" n) (fun l hl => (hlocks l hl).1) hrun' move.1 hdest
  calc contents s'.global move.1 = contents s.global move.1 := congrArg (Option.map Buffer.values) kept
    _ = assignInTurn (Histogram.seeds hs pattern) (contents d.global) move.1 := congrFun hcontents move.1
    _ = contents d.global move.2 := assignInTurn_of_apart hdistinct hapart move hmove

def tallyPattern (moves : List (Ident × Ident)) : List PatElem := moves.map fun move => ⟨move.1, .i32, [.int 2]⟩

def tallyHistograms (moves : List (Ident × Ident)) : List Histogram :=
  moves.map fun move => ⟨.int 2, [], [.const (.i32 0)], .ofOperator .add .i32, [move.2]⟩

/-- Histograms of two buckets, each of which starts with the contents of an array and counts nothing. -/
def tallyOp (moves : List (Ident × Ident)) : SegOp where
  kind := .histogram (tallyHistograms moves)
  grid := ⟨.thread, .int 1, .int 2, .direct⟩
  space := ⟨"flat", [("i", .int 0)]⟩
  stms := []
  results := moves.map (fun _ => .returns (.int 0)) ++ moves.map fun _ => .returns (.const (.i32 1))

def tallies (moves : List (Ident × Ident)) : Module where
  env := { arrays := ((({} : Table _).insert "a" (.i32, [.int 2])).insert "b" (.i32, [.int 2])).insert "c" (.i32, [.int 2]) }
  ops := [.seg (tallyPattern moves) (tallyOp moves)]

def talliesDevice : Device where
  wave := 1
  scalars := ({} : Table Value).insert "builtin#copy.group_size" (.i64 2)
  global := ((({} : Memory).insert "a" (.ofValues .i32 [.i32 1, .i32 2])).insert "b"
    (.ofValues .i32 [.i32 3, .i32 4])).insert
    "c" (.ofValues .i32 [.i32 5, .i32 6])

/-- One array after the other gets the contents of the next. -/
theorem run_seeds_chain :
    ∃ p copies k rest, (tallies [("a", "b"), ("b", "c")]).lower {} = .ok p ∧ p.kernels = copies ++ k :: rest ∧
    (∃ n, k.name = numbered "seghist" n) ∧
    ∃ s, copies.forM (talliesDevice.runKernel ((talliesDevice.hostEnv p)[·]?)) ⟨talliesDevice.global, {}⟩ = .ok () s ∧
      contents s.global "a" = some [.i32 3, .i32 4] ∧ contents s.global "b" = some [.i32 5, .i32 6] := by
  let moves : List (Ident × Ident) := [("a", "b"), ("b", "c")]
  let m := tallies moves
  obtain ⟨p, hlower, -⟩ : ∃ p ∈ (m.lower {}).toOption, p.kernels.length = 3 := by decide +kernel
  have hp := ok_of_toOption hlower
  have known : ∀ x, ¬m.env.Known x := by
    rintro x (hx | hx) <;> simp [m, tallies] at hx
  have arrays : ∀ x ∈ m.env.arrays, x = "a" ∨ x = "b" ∨ x = "c" := by
    intro x hx
    simp only [m, tallies, Std.ExtTreeMap.mem_insert, Std.LawfulEqCmp.compare_eq_iff_eq,
      Std.ExtTreeMap.not_mem_empty] at hx
    grind
  have holds : ∀ x ∈ ["a", "b", "c"], talliesDevice.Holds m.env p x .i32 [2] := by
    intro x hx
    have declared : ∀ x ∈ ["a", "b", "c"], m.env.arrays[x]? = some (.i32, [.int 2]) := by decide +kernel
    have length : ∀ x ∈ ["a", "b", "c"], (Store.ofGlobal talliesDevice.global).layout? .global x = some (.i32, 2) := by
      decide +kernel
    exact ⟨⟨_, declared x hx, .cons (IsInt.int 2) .nil⟩, length x hx⟩
  have complete : (talliesDevice.surroundings m.env p).Complete := by
    have present : "a" ∈ talliesDevice.global ∧ "b" ∈ talliesDevice.global ∧ "c" ∈ talliesDevice.global := by
      decide +kernel
    refine ⟨fun x type h => absurd h (by simp [Device.surroundings, m, tallies]), fun x hx => ?_, fun x _ => known x⟩
    obtain rfl | rfl | rfl := arrays x hx
    exacts [present.1, present.2.1, present.2.2]
  have copyable : ∀ move ∈ Histogram.seeds (tallyHistograms moves) (tallyPattern moves),
    talliesDevice.Copyable m.env p 2 move := by
    intro move hmove
    have hmem : ∀ move ∈ moves, move.1 ∈ ["a", "b", "c"] ∧ move.2 ∈ ["a", "b", "c"] := by decide
    obtain ⟨hdest, hsource⟩ := hmem move hmove
    have source := holds _ hsource
    exact ⟨.i32, [2], holds _ hdest, source.declared.imp fun _ h => h.1, source.length, by unfold Fits; decide⟩
  have names : ∀ x, m.env.Known x ∨ x ∈ m.env.arrays → ¬Generated x := by
    rintro x (hx | hx)
    · exact absurd hx (known x)
    · obtain rfl | rfl | rfl := arrays x hx <;> exact not_generated (by decide)
  have ops : m.ops = [] ++ .seg (tallyPattern moves) (tallyOp moves) :: [] := rfl
  obtain ⟨p₀, copies, locks, k, rest, hbefore, hkernels, hname, hlocks, hruns⟩ :=
    run_seeds (d := talliesDevice) (G := 2) ops hp
    rfl rfl complete names (by simp [m, tallies]) rfl (by decide) copyable (by decide) (by decide)
  obtain rfl := hlocks (by decide +kernel)
  obtain ⟨s, hrun, hs⟩ := hruns {}
  have hend := hs s rfl
  refine ⟨p, copies, k, rest, hp, ?_, hname, s, hrun, (hend ("a", "b") ?_).trans ?_, (hend ("b", "c") ?_).trans ?_⟩
  · obtain rfl : p₀ = {} := (Except.ok.inj hbefore).symm
    simpa using hkernels
  all_goals decide +kernel

/-- Two arrays are not exchanged: the second copy finds what the first one has left. -/
theorem swapped_overwrites :
    ∃ p, (tallies [("a", "b"), ("b", "a")]).lower {} = .ok p ∧ (talliesDevice.run p).1.isOk = true ∧
    (p.kernels.drop 2).map (·.name) = [numbered "seghist" 18] ∧
      contents talliesDevice.global "a" = some [.i32 1, .i32 2] ∧
    contents (final ((p.kernels.take 2).forM (talliesDevice.runKernel ((talliesDevice.hostEnv p)[·]?))
      ⟨talliesDevice.global, {}⟩)).global "b" = some [.i32 3, .i32 4] := by
  obtain ⟨p, hp, h⟩ : ∃ p ∈ ((tallies [("a", "b"), ("b", "a")]).lower {}).toOption,
    (talliesDevice.run p).1.isOk = true ∧
      (p.kernels.drop 2).map (·.name) = [numbered "seghist" 18] ∧
        contents talliesDevice.global "a" = some [.i32 1, .i32 2] ∧
      contents (final ((p.kernels.take 2).forM (talliesDevice.runKernel ((talliesDevice.hostEnv p)[·]?))
        ⟨talliesDevice.global, {}⟩)).global "b" = some [.i32 3, .i32 4] := by decide +kernel
  exact ⟨p, ok_of_toOption hp, h⟩

/-- Each of four points counts in the bucket of its own index. -/
def census (flat : Ident) : Module where
  env := { arrays := (({} : Table _).insert "init" (.i32, [.int 4])).insert "counts" (.i32, [.int 4]) }
  ops := [.seg [⟨"counts", .i32, [.int 4]⟩] {
    kind := .histogram [{
      width := .int 4
      outerShape := []
      neutral := [.const (.i32 0)]
      lambda := { params := [⟨"x", .i32⟩, ⟨"y", .i32⟩], results := [.binary .add (.var "x") (.var "y")] }
      dests := ["init"] }]
    grid := ⟨.thread, .int 1, .int 4, .direct⟩
    space := ⟨flat, [("i", .int 4)]⟩
    stms := []
    results := [.returns (.var "i"), .returns (.const (.i32 1))] }]

/-- An index that has the name of the flat index is reset before it is computed from itself, so all points count in
    the first bucket. -/
theorem census_goes_wrong :
    let d : Device := {
      wave := 1
      scalars := ({} : Table Value).insert "builtin#copy.group_size" (.i64 4)
      global := (({} : Memory).insert "init" (.zeroed .i32 4)).insert "counts" (.zeroed .i32 4) }
    ∃ p, (census "i").lower {} = .ok p ∧ (d.run p).1.isOk = true ∧
      (d.run p).2.global["counts"]?.map Buffer.values = some ([4, 0, 0, 0].map Value.i32) := by
  intro d
  obtain ⟨p, hp, h⟩ : ∃ p ∈ ((census "i").lower {}).toOption, (d.run p).1.isOk = true ∧
      (d.run p).2.global["counts"]?.map Buffer.values = some ([4, 0, 0, 0].map Value.i32) := by decide +kernel
  exact ⟨p, ok_of_toOption hp, h⟩

end Device
end SegKernel
