import SegKernel.Proofs.Maps.Empty
import SegKernel.Proofs.Totals.Kernels

/-! The program of a reduction. It allocates an array of partial results for each component of the totals, and launches
    two kernels. On a device, the first elements of the destinations become the totals of all points. -/

namespace SegKernel
open Exp Lowering

/-! ### Other memory -/

namespace Surroundings
variable {H : Surroundings} {m : Memory}

/-- The elements of the arrays of the host depend on these arrays only. -/
theorem element?_congr (h : ∀ x ∈ H.env.arrays, m[x]? = H.memory[x]?) :
    { H with memory := m }.element? = H.element? := by
  funext array is
  unfold element?
  dsimp only
  cases harray : H.env.arrays[array]? with
  | none => rfl
  | some declared =>
    rw [h array (Std.ExtTreeMap.mem_iff_isSome_getElem?.mpr (by rw [harray]; rfl))]
    rfl

theorem layout?_congr {x : Ident} (h : m[x]? = H.memory[x]?) :
    (Store.ofGlobal m).layout? .global x = (Store.ofGlobal H.memory).layout? .global x :=
  congrArg (Option.map _) h

theorem mem_of_layout? {m' : Memory} {x : Ident} (hx : x ∈ m)
    (h : (Store.ofGlobal m').layout? .global x = (Store.ofGlobal m).layout? .global x) : x ∈ m' := by
  have isSome : ∀ m : Memory, x ∈ m ↔ ((Store.ofGlobal m).layout? .global x).isSome := fun m => by
    rw [Std.ExtTreeMap.mem_iff_isSome_getElem?, Store.layout?, Option.isSome_map]
    rfl
  rw [isSome] at hx ⊢
  rwa [h]

/-- A host that is complete stays so when its arrays are laid out as before. -/
theorem Complete.of_layout (hH : H.Complete) (h : ∀ x ∈ H.env.arrays,
    (Store.ofGlobal m).layout? .global x = (Store.ofGlobal H.memory).layout? .global x) : ({ H with memory := m } :
      Surroundings).Complete :=
  ⟨hH.scalars, fun x hx => mem_of_layout? (hH.arrays x hx) (h x hx), hH.apart⟩

end Surroundings

/-- What global arrays hold is in the global memory. -/
theorem Store.HoldsAll.ofGlobal {m : Store} {views : List View} {i : Nat} {vs : List Value} (h : m.HoldsAll views i vs)
    (hglobal : ∀ view ∈ views, view.space = .global) : (Store.ofGlobal m.global).HoldsAll views i vs := by
  refine h.of_views (fun view hview => ?_) fun p hp => ?_
  · rw [hglobal view hview]
    rfl
  · obtain ⟨view, hview, rfl⟩ := hp
    exact Store.bits?_puts_ofGlobal m [] (hglobal view hview)

/-- What a body computes depends on the arrays of the host only. -/
theorem BodyStm.evalAll_congr {H : Surroundings} {m : Memory} (h : ∀ x ∈ H.env.arrays, m[x]? = H.memory[x]?) :
    BodyStm.evalAll { H with memory := m } = BodyStm.evalAll H := by
  have element : ∀ ρ : Env, ρ.element? { H with memory := m } = ρ.element? H := fun ρ => by
    funext array is
    unfold Env.element?
    rw [Surroundings.element?_congr h]
  have step : BodyStm.eval { H with memory := m } = BodyStm.eval H := by
    funext ρ stm
    cases stm with
    | index name type array is =>
      unfold BodyStm.eval
      rw [element]
    | _ => rfl
  funext ρ stms
  unfold BodyStm.evalAll
  rw [step]

namespace Segmented
variable {op : SegOp} {H : Surroundings} {pattern : List PatElem} {Ts : List Total} {n limit P G : Nat} {d : Device}
  {m : Memory}

theorem storesAt_congr (h : ∀ x ∈ H.env.arrays, m[x]? = H.memory[x]?) :
    op.storesAt { H with memory := m } pattern = op.storesAt H pattern := by
  funext ds f
  unfold storesAt
  rw [BodyStm.evalAll_congr h]
  rfl

theorem visit_congr (h : ∀ x ∈ H.env.arrays, m[x]? = H.memory[x]?) :
    op.visit { H with memory := m } pattern = op.visit H pattern := by
  unfold visit
  rw [storesAt_congr h]

/-- What is mapped depends on the arrays of the host only. -/
theorem mapped_congr (h : ∀ x ∈ H.env.arrays, m[x]? = H.memory[x]?) :
    op.mapped { H with memory := m } pattern Ts = op.mapped H pattern Ts := by
  unfold mapped
  rw [visit_congr h]

/-- A reduction is the same in a memory with the same arrays of the host. -/
theorem Reduces.of_memory (R : op.Reduces H pattern Ts n limit) (h : ∀ x ∈ H.env.arrays, m[x]? = H.memory[x]?) :
    op.Reduces { H with memory := m } pattern Ts n limit where
  kind := R.kind
  wellNamed := R.wellNamed
  indices := R.indices
  plain := R.plain
  literals := R.literals
  extents := R.extents
  sizes := R.sizes
  lawful := R.lawful
  ordered := R.ordered
  distinct := R.distinct
  dests := R.dests.imp fun p type ⟨⟨shape, hshape⟩, hreaches⟩ =>
    ⟨⟨shape, hshape⟩, hreaches.of_layout
      (Surroundings.layout?_congr (h p.name (Std.ExtTreeMap.mem_iff_isSome_getElem?.mpr (by
      rw [hshape]
      rfl))))⟩
  contributes := by
    rw [BodyStm.evalAll_congr h]
    exact R.contributes
  deposits := {
    lodged := by
      rw [BodyStm.evalAll_congr h]
      intro f hf ρ hρ r hr type shape hshape
      have := R.deposits.lodged f hf ρ hρ r hr type shape hshape
      cases hresult : r.2 <;> rw [hresult] at this <;> exact this
    stored := by
      rw [storesAt_congr h]
      exact R.deposits.stored
    apart := by
      rw [visit_congr h]
      exact R.deposits.apart
    room := by
      rw [visit_congr h]
      intro f w hw type shape hshape
      exact (R.deposits.room f w hw type shape hshape).of_layout (Surroundings.layout?_congr (h _
        (Std.ExtTreeMap.mem_iff_isSome_getElem?.mpr (by
          rw [hshape]
          rfl)))) }

theorem Affords.of_memory (A : op.Affords H d P G n) : op.Affords { H with memory := m } d P G n where
  sized := ⟨A.sized.groups, A.sized.threads, A.sized.numGroups, A.sized.groupSize, A.sized.hostGroups,
    A.sized.hostThreads⟩
  unchecked := A.unchecked
  limit := A.limit
  wave := A.wave
  width := A.width
  points := A.points
  partials := A.partials

end Segmented

/-! ### The kernels of a program -/

namespace Lowering
variable {α : Type} {setting : Setting} {σ σ' : Session}

/-- A computation that adds one kernel to the program, and nothing else. -/
def Adds (setting : Setting) (f : Lowering Unit) : Prop := ∀ σ u σ', f setting σ = .ok (u, σ') →
  ∃ k, σ'.program = { σ.program with kernels := σ.program.kernels ++ [k] }

theorem Makes.adds {f : Lowering α} {P : α → Prop} {g : α → Lowering Unit} (hf : Makes setting f P)
    (hg : ∀ a, Adds setting (g a)) :
    Adds setting (f >>= g) := by
  intro σ u σ' h
  obtain ⟨a, σ₁, ha, h⟩ := bind_eq_ok.mp h
  rw [← (hf σ a σ₁ ha).2]
  exact hg a σ₁ u σ' h

theorem makes_lift (f : Fresh α) : Makes setting (liftM f) fun _ => True := fun _ _ _ h => by
  obtain ⟨-, rfl⟩ := lift_eq_ok.mp h
  exact ⟨trivial, rfl⟩

theorem makes_inRange {taken available : Nat} : Makes setting (inRange taken available) fun _ => True := fun _ _ _ h =>
  ⟨trivial, by rw [(inRange_eq_ok.mp h).2]⟩

theorem makes_foldAll (accs : List Accumulator) (values : List Exp) :
    Makes setting (Accumulator.foldAll accs values) fun _ => True :=
  fun _ _ _ h => ⟨trivial, (Segmented.sharedArrays_foldAll h).2.2⟩

theorem adds_emitKernel (stem : String) (numGroups groupSize : Exp) (body : Stmt) :
    Adds setting (emitKernel stem numGroups groupSize body) := fun σ u σ' h => by
  obtain ⟨k, -, -, -, -, -, rfl⟩ := emitKernel_eq_ok h
  exact ⟨k, rfl⟩

theorem adds_reducePoints (op : SegOp) (ops : List Combiner) (parts : ReductionParts) (partials : List View) :
    Adds setting (reducePoints op ops parts partials) :=
  (makes_lift _).adds fun _ => (Makes.mapM fun _ _ => makes_lift _).adds fun _ => makes_inRange.adds fun _ =>
    (makes_lift _).adds fun _ => (makes_lift _).adds fun _ =>
      (makes_threadBody (K := fun _ => False) fun _ _ _ _ => id).adds fun _ =>
      (makes_threadResults (K := fun _ => False) fun _ => False.elim).adds fun _ => (makes_foldAll _ _).adds fun _ =>
        (makes_lift _).adds fun _ => adds_emitKernel _ _ _ _

theorem adds_reducePartials (op : SegOp) (ops : List Combiner) (partials dests : List View) :
    Adds setting (reducePartials op ops partials dests) :=
  (makes_lift _).adds fun _ => (Makes.mapM fun _ _ => makes_lift _).adds fun _ => (makes_lift _).adds fun _ =>
    (makes_lift _).adds fun _ => (makes_lift _).adds fun _ => (makes_foldAll _ _).adds fun _ =>
      (makes_lift _).adds fun _ => adds_emitKernel _ _ _ _

end Lowering

/-! ### What a program writes -/

/-- The view of an array that a program allocates. -/
def Allocation.view (a : Allocation) : View := ⟨a.name, a.type, .global, false⟩

namespace Device
variable {d : Device} {p : Program}

/-- The writes of kernels one after another. -/
def kernelsWrites (d : Device) (host : Scope) : List Kernel → Progress → List Write
  | [], _ => []
  | k :: ks, s =>
    (d.kernelWrites host k s).map (·.2) ++ following (d.runKernel host k) s fun _ s => kernelsWrites d host ks s

/-- The writes of a program, from its first kernel to its last. -/
def writes (d : Device) (p : Program) : List Write :=
  let host : Scope := ((d.hostEnv p)[·]?)
  following (p.allocations.forM (allocate host)) { global := d.global } fun _ s => kernelsWrites d host p.kernels s

theorem following_of_ok {α β : Type} {r : Launch α} {s s' : Progress} {a : α} {rest : α → Progress → List β}
    (h : r s = .ok a s') :
    following r s rest = rest a s' := by
  unfold following
  rw [h]

/-- A program of two kernels runs as its kernels do. -/
theorem run_of_two_kernels {k₁ k₂ : Kernel} {memory : Memory} {s₁ s₂ : Progress} (hkernels : p.kernels = [k₁, k₂])
    (hallocate : p.allocations.forM (allocate ((d.hostEnv p)[·]?)) { global := d.global } = .ok () { global := memory })
    (h₁ : d.runKernel ((d.hostEnv p)[·]?) k₁ ⟨memory, {}⟩ = .ok () s₁)
    (h₂ : d.runKernel ((d.hostEnv p)[·]?) k₂ s₁ = .ok () s₂) :
    d.run p = (.ok s₂.stats, { d with global := s₂.global }) ∧ d.writes p =
      (d.kernelWrites ((d.hostEnv p)[·]?) k₁ ⟨memory, {}⟩).map (·.2) ++
        (d.kernelWrites ((d.hostEnv p)[·]?) k₂ s₁).map (·.2) := by
  have hprogram : d.runProgram p { global := d.global } = .ok () s₂ := by
    unfold runProgram
    rw [hkernels]
    exact Run.bind_eq_ok.mpr ⟨(), _, hallocate, Run.bind_eq_ok.mpr ⟨(), s₁, h₁, Run.bind_eq_ok.mpr ⟨(), s₂, h₂, rfl⟩⟩⟩
  constructor
  · unfold run
    rw [hprogram]
  · unfold writes
    rw [following_of_ok hallocate, hkernels, kernelsWrites, following_of_ok h₁, kernelsWrites, following_of_ok h₂,
      kernelsWrites,
      List.append_nil]

end Device

/-! ### Two stages -/

theorem Write.avoids_append {views others : List View} {w : Write} :
    w.avoids (views ++ others) = true ↔ w.avoids views = true ∧ w.avoids others = true := by
  simp only [avoids_iff, List.map_append, List.mem_append, not_or]
  tauto

namespace Total
variable {Ts : List Total} {pattern : List PatElem}

theorem zip_take :
    ∀ (pattern : List PatElem) (types : List ScalarType), (pattern.take types.length).zip types = pattern.zip types
  | [], _ => by simp
  | _ :: _, [] => by simp
  | p :: pattern, type :: types => by
    rw [List.length_cons, List.take_succ_cons, List.zip_cons_cons, List.zip_cons_cons, zip_take pattern types]

theorem dests_global : ∀ dest ∈ dests Ts pattern, dest.space = .global := fun dest hdest => by
  obtain ⟨p, -, rfl⟩ := List.mem_map.mp hdest
  rfl

theorem map_array_dests (Ts : List Total) (pattern : List PatElem) :
    (dests Ts pattern).map (·.array) = (pattern.take (types Ts).length).map (·.name) := by
  have first := congrArg (List.map PatElem.name) (List.map_fst_zip (List.length_take_le (types Ts).length pattern))
  rw [List.map_map, zip_take] at first
  rw [dests, List.map_map, ← first]
  rfl

end Total

namespace Segmented
variable {op : SegOp} {H : Surroundings} {pattern : List PatElem} {Ts : List Total} {n limit P G : Nat}

/-- What the groups of the first kernel have combined, as what groups contribute to the same operators. -/
def groupTotals (Ts : List Total) (P G n : Nat) : List Total :=
  Ts.map fun T => T.of fun g => foldSpan T.op (fun t => T.foldOver (share Ts (P * G) n (g * G + t))) 0 (G - 1)

theorem groupTotals_combiners : (groupTotals Ts P G n).map (·.combiner) = Ts.map (·.combiner) := by
  simp [groupTotals, Total.of]

theorem groupTotals_types : Total.types (groupTotals Ts P G n) = Total.types Ts := by
  simp [Total.types, groupTotals, Total.of, List.flatMap_map]

theorem groupTotals_contributions (g : Nat) : Total.contributions (groupTotals Ts P G n) g =
    Total.combined Ts (fun t => share Ts (P * G) n (g * G + t)) (G - 1) := by
  simp [Total.contributions, Total.combined, groupTotals, Total.of, List.flatMap_map]

/-- What the second kernel combines of what the groups have is the total of all points. -/
theorem groupTotals_combined {σ : Scope} (hTs : ∀ T ∈ Ts, T.Lawful σ)
    (hordered : (∀ T ∈ Ts, T.combiner.commutative = true) → ∀ T ∈ Ts, Std.Commutative T.op) (hP : 0 < P) (hG : 0 < G) :
    Total.combined (groupTotals Ts P G n) (Sharing.contiguous.share G ((P + G - 1) / G) P) (G - 1) =
      Total.allOver Ts (List.range n) := by
  unfold Total.combined groupTotals Total.allOver
  rw [List.flatMap_map]
  refine List.flatMap_congr fun T hT => congrArg Subtype.val ?_
  refine Sharing.over_stages (hTs T hT) (sharing Ts) (fun hstrided => hordered (fun T' hT' => ?_) T hT) hG
    (Sharing.le_turns (Nat.mul_pos hP hG)) (Sharing.le_turns hG)
  unfold sharing at hstrided
  split at hstrided
  · rename_i hall
    exact List.all_eq_true.mp hall _ (List.mem_map_of_mem hT')
  · cases hstrided

/-- The threads of all groups have all points, each of them once. -/
theorem perm_share {α : Type} (Ts : List Total) (n : Nat) (hP : 0 < P) (hG : 0 < G) (f : Nat → List α) :
    ((List.range P).flatMap fun g => (List.range G).flatMap fun t => (share Ts (P * G) n (g * G + t)).flatMap f).Perm
      ((List.range n).flatMap f) := by
  have shares : ((List.range (P * G)).flatMap (share Ts (P * G) n)).Perm (List.range n) := by
    have hturns := Sharing.le_turns (n := n) (Nat.mul_pos hP hG)
    unfold share
    cases sharing Ts with
    | contiguous => exact List.Perm.of_eq (Sharing.flatMap_contiguous hturns)
    | strided => exact Sharing.perm_strided hturns
  rw [Sharing.flatMap_groups (fun i => (share Ts (P * G) n i).flatMap f), ← List.flatMap_assoc]
  exact shares.flatMap_right f

/-- What a reduction leaves in a memory, after some writes. The totals of all points are at the destinations. Of the
    other arrays there were before, exactly what is mapped was written. -/
structure Reduced (op : SegOp) (H : Surroundings) (pattern : List PatElem) (Ts : List Total) (n : Nat)
    (created : List View) (memory : Memory) (writes : List Write) : Prop where
  totals : (Store.ofGlobal memory).HoldsAll (Total.dests Ts pattern) 0 (Total.allOver Ts (List.range n))
  mapped : (writes.filter (Write.avoids (Total.dests Ts pattern ++ created))).Perm
    ((List.range n).flatMap (op.mapped H pattern Ts n))
  frame : ∀ q : Slot, q.space = .global → q.array ∉ created.map (·.array) → ¬tupleSlots (Total.dests Ts pattern) 0 q →
    (Store.ofGlobal memory).bits? q =
      ((Store.ofGlobal H.memory).puts ((List.range n).flatMap (op.mapped H pattern Ts n))).bits? q

/-- A destination of a total is no destination of a mapped result. -/
theorem mapped_avoids {f : Nat} {w : Write} (hdistinct : (pattern.map (·.name)).Nodup)
    (hw : w ∈ op.mapped H pattern Ts n f) :
    w.avoids (Total.dests Ts pattern) = true := by
  obtain ⟨hspace, harray⟩ := slot_of_mem_visit hw
  refine Write.avoids_iff.mpr ⟨hspace, fun hmem => ?_⟩
  rw [Total.map_array_dests] at hmem
  rw [← List.take_append_drop (Total.types Ts).length pattern, List.map_append] at hdistinct
  exact List.disjoint_of_nodup_append hdistinct hmem harray

/-- After both kernels, memory holds the totals. -/
theorem reduced_of_folded {memory memory' memory'' : Memory} {partials created : List View} {past past' : List Write}
    (R : op.Reduces H pattern Ts n limit) (hP : 0 < P) (hG : 0 < G)
    (hcreated : created.map (·.array) = partials.map (·.array))
    (hmemory : ∀ x ∉ partials.map (·.array), memory[x]? = H.memory[x]?)
    (first : Device.Folded memory partials id
      (fun g => Total.combined Ts (fun t => share Ts (P * G) n (g * G + t)) (G - 1))
      (fun g => (List.range G).flatMap fun t =>
        (share Ts (P * G) n (g * G + t)).flatMap (op.mapped H pattern Ts n)) P past)
    (hfirst : memory' = ((Store.ofGlobal memory).puts past).global)
    (second : Device.Folded memory' (Total.dests Ts pattern) (fun _ => 0) (fun _ => Total.allOver Ts (List.range n))
      (fun _ => []) 1 past')
    (hsecond : memory'' = ((Store.ofGlobal memory').puts past').global) :
    op.Reduced H pattern Ts n created memory'' (past ++ past') := by
  have mapped := first.apart.trans (perm_share Ts n hP hG (op.mapped H pattern Ts n))
  have none : past'.filter (Write.avoids (Total.dests Ts pattern)) = [] := List.perm_nil.mp second.apart
  subst hsecond
  refine ⟨(second.holds 0 Nat.one_pos).ofGlobal Total.dests_global, ?_, fun q hq hother hnot => ?_⟩
  · have both : Write.avoids (Total.dests Ts pattern ++ created) = fun w =>
        w.avoids (Total.dests Ts pattern) && w.avoids partials := by
      have same : Write.avoids created = Write.avoids partials := by unfold Write.avoids; rw [hcreated]
      funext w
      rw [Bool.eq_iff_iff, Bool.and_eq_true, Write.avoids_append, same]
    have avoiding : ((List.range n).flatMap (op.mapped H pattern Ts n)).filter (Write.avoids (Total.dests Ts pattern)) =
        (List.range n).flatMap (op.mapped H pattern Ts n) := List.filter_eq_self.mpr fun w hw => by
      obtain ⟨i, -, hw⟩ := List.mem_flatMap.mp hw
      exact mapped_avoids R.distinct hw
    have later : past'.filter (fun w => w.avoids (Total.dests Ts pattern) && w.avoids partials) = [] :=
      List.filter_eq_nil_iff.mpr
      fun w hw h => List.filter_eq_nil_iff.mp none w hw (Bool.and_eq_true_iff.mp h).1
    rw [both, List.filter_append, later, List.append_nil, ← List.filter_filter, ← avoiding]
    exact mapped.filter _
  · have stored : ∀ w ∈ past.filter (Write.avoids partials), ∃ i, w ∈ op.mapped H pattern Ts n i := fun w hw => by
      obtain ⟨i, -, hw⟩ := List.mem_flatMap.mp (mapped.mem_iff.mp hw)
      exact ⟨i, hw⟩
    -- Before the first kernel, an array that was not created is as the host left it.
    have old : (Store.ofGlobal memory).bits? q = (Store.ofGlobal H.memory).bits? q := by
      obtain ⟨_, array, position⟩ := q
      subst hq
      exact congrArg (Option.bind · _) (hmemory array (hcreated ▸ hother))
    refine (Store.bits?_puts_ofGlobal _ [] hq).trans ?_
    rw [Store.puts_nil, second.frame q hq fun g _ => hnot, none, hfirst]
    refine (Store.bits?_puts_ofGlobal _ [] hq).trans ((first.frame q hq fun g _ ⟨view, hview, he⟩ => ?_).trans ?_)
    · rw [he, hcreated] at hother
      exact hother (List.mem_map_of_mem hview)
    · rw [Store.puts_congr (fun w => mapped.mem_iff) fun w hw w' hw' hslot => ?_]
      · exact Store.bits?_puts_congr old _
      · obtain ⟨i, hw⟩ := stored w hw
        obtain ⟨i', hw'⟩ := stored w' hw'
        exact (R.deposits.apart hw hw' hslot).2

end Segmented
/-! ### The program -/

namespace Segmented
variable {op : SegOp} {H : Surroundings} {pattern : List PatElem} {Ts : List Total} {n P G : Nat} {d : Device}
  {setting : Setting} {s s' s'' : Session} {u u' : Unit} {parts : ReductionParts} {partials : List View}

/-- New arrays for the components of all totals. -/
structure Created (Ts : List Total) (partials : List View) : Prop where
  types : partials.map (·.type) = Total.types Ts
  global : ∀ view ∈ partials, view.space = .global
  generated : ∀ view ∈ partials, Generated view.array
  nodup : (partials.map (·.array)).Nodup

/-- Other totals of the same types have room in arrays that are laid out as before. -/
theorem Partials.of_layout {m : Memory} {Ts' : List Total} (h : Partials H Ts P partials)
    (htypes : Total.types Ts' = Total.types Ts)
    (hlayout : ∀ view ∈ partials, (Store.ofGlobal m).layout? .global view.array =
      (Store.ofGlobal H.memory).layout? .global view.array) :
    Partials { H with memory := m } Ts' P partials where
  types := h.types.trans htypes.symm
  global := h.global
  generated := h.generated
  apart := h.apart
  reaches g hg view hview := (h.reaches g hg view hview).of_layout (by
    rw [h.global view hview]
    exact hlayout view hview)

/-- The arrays of a program, when they have an element for each group. -/
theorem Created.zeroed (h : Created Ts partials)
    (hmemory : ∀ view ∈ partials, H.memory[view.array]? = some (.zeroed view.type P)) :
    Partials H Ts P partials where
  types := h.types
  global := h.global
  generated := h.generated
  apart := (List.pairwise_map.mp h.nodup).imp fun hne hsame => hne hsame.2
  reaches g hg view hview := by
    refine ⟨view.type, P, ?_, rfl, hg⟩
    rw [h.global view hview]
    refine (congrArg (Option.map _) (hmemory view hview)).trans ?_
    simp [Buffer.zeroed]

/-- The lowering of a reduction adds arrays and two kernels to the program. -/
theorem reduceByThreads_eq_ok (R : op.Reduces H pattern Ts n d.loopLimit) (henv : setting.env = H.env)
    (h : reduceByThreads pattern op (Ts.map (·.combiner)) setting {} = .ok (u, s'')) :
    ∃ parts partials s s', Created Ts partials ∧
      s.program = { allocations := partials.map fun view => ⟨view.array, view.type, op.grid.groupCount⟩ } ∧
      List.Forall₂ (fun r x => ∃ value, r = BodyResult.returns value ∧ x = value.toExp)
        (op.results.take (Total.types Ts).length)
        parts.contributions ∧
      parts.mapped = (pattern.drop (Total.types Ts).length).zip (op.results.drop (Total.types Ts).length) ∧
      reducePoints op (Ts.map (·.combiner)) parts partials setting s = .ok ((), s') ∧
      reducePartials op (Ts.map (·.combiner)) partials (Total.dests Ts pattern) setting s' = .ok (u, s'') := by
  simp only [reduceByThreads, bind_eq_ok] at h
  obtain ⟨parts, s₁, hparts, partials, s, hallocate, ⟨⟩, s', hpoints, hpartials⟩ := h
  obtain ⟨rfl, hcontributions, hdests, hmapped⟩ := reductionParts_eq_ok R henv hparts
  obtain ⟨views, hviews, htypes, hnames, hglobal⟩ := mapM_allocate setting "segred_partials" op.grid.groupCount
    ((Ts.map (·.combiner)).flatMap (·.lambda.resultTypes)) {}
  cases hviews.symm.trans hallocate
  refine ⟨parts, partials, _, s', ⟨?_, hglobal, fun view hview => ?_, ?_⟩, rfl, hcontributions, hmapped, hpoints,
    hdests ▸ hpartials⟩
  · rw [htypes, Total.types, List.flatMap_map]
  · have hname := List.mem_map_of_mem (f := (·.array)) hview
    rw [hnames] at hname
    obtain ⟨k, -, he⟩ := List.mem_map.mp hname
    exact ⟨"segred_partials", by decide, k, he.symm⟩
  · rw [hnames]
    exact List.Nodup.map (fun _ _ h => (numbered_inj.mp h).2) List.nodup_range'

section
variable {limit : Nat} (R : op.Reduces H pattern Ts n limit)
include R

/-- The destinations of the totals are arrays of the host with an element of the right type. -/
theorem Reduces.of_mem_dests {dest : View} (hdest : dest ∈ Total.dests Ts pattern) :
    dest.array ∈ H.env.arrays ∧ (Store.ofGlobal H.memory).Reaches dest 0 := by
  obtain ⟨⟨p, type⟩, hp, rfl⟩ := List.mem_map.mp hdest
  rw [← Total.zip_take] at hp
  obtain ⟨⟨shape, hshape⟩, hreaches⟩ := (List.forall₂_iff_zip.mp R.dests).2 hp
  exact ⟨Std.ExtTreeMap.mem_iff_isSome_getElem?.mpr (Option.isSome_iff_exists.mpr ⟨_, hshape⟩), hreaches⟩

theorem Reduces.map_type_dests : (Total.dests Ts pattern).map (·.type) = Total.types Ts := by
  have second := List.map_snd_zip (Nat.le_of_eq R.dests.length_eq.symm)
  rw [Total.zip_take] at second
  rw [Total.dests, List.map_map]
  exact second

theorem Reduces.dests_apart : ViewsApart (Total.dests Ts pattern) := by
  have nodup : ((Total.dests Ts pattern).map (·.array)).Nodup := by
    rw [Total.map_array_dests]
    exact R.distinct.sublist ((List.take_sublist _ _).map _)
  exact (List.pairwise_map.mp nodup).imp fun hne hsame => hne hsame.2

end

/-- The kernels of a reduction run one after the other. -/
theorem runKernels_fold {memory : Memory} {created : List View} (R : op.Reduces H pattern Ts n d.loopLimit)
    (A : op.Affords H d P G n) (hH : H.Complete) (henv : setting.env = H.env) (hcreated : Created Ts partials)
    (hviews : created.map (·.array) = partials.map (·.array))
    (hs : s.program = { allocations := partials.map fun view => ⟨view.array, view.type, op.grid.groupCount⟩ })
    (hnew : ∀ view ∈ partials, memory[view.array]? = some (.zeroed view.type P))
    (hother : ∀ x ∉ partials.map (·.array), memory[x]? = H.memory[x]?)
    (hunknown : ∀ x ∈ s''.program.introduced, ¬H.env.Known x)
    (hcontributions : List.Forall₂ (fun r x => ∃ value, r = BodyResult.returns value ∧ x = value.toExp)
      (op.results.take (Total.types Ts).length) parts.contributions)
    (hmapped : parts.mapped = (pattern.drop (Total.types Ts).length).zip (op.results.drop (Total.types Ts).length))
    (hpoints : reducePoints op (Ts.map (·.combiner)) parts partials setting s = .ok (u, s'))
    (hpartials : reducePartials op (Ts.map (·.combiner)) partials (Total.dests Ts pattern) setting s' = .ok (u', s'')) :
    ∃ k₁ k₂ s₁ s₂, s''.program = { s.program with kernels := [k₁, k₂] } ∧
      d.runKernel H.host k₁ ⟨memory, {}⟩ = .ok () s₁ ∧
      d.runKernel H.host k₂ s₁ = .ok () s₂ ∧ op.Reduced H pattern Ts n created s₂.global
        ((d.kernelWrites H.host k₁ ⟨memory, {}⟩).map (·.2) ++ (d.kernelWrites H.host k₂ s₁).map (·.2)) := by
  have hP := A.sized.groups
  have hG := A.sized.threads
  -- The program after the first kernel, and after the second.
  obtain ⟨k₁', hfirst'⟩ := adds_reducePoints _ _ _ _ _ _ _ hpoints
  obtain ⟨k₂', hsecond'⟩ := adds_reducePartials _ _ _ _ _ _ _ hpartials
  have allocated : ∀ a ∈ s.program.allocations, a.name ∈ partials.map (·.array) := fun a ha => by
    rw [hs] at ha
    obtain ⟨view, hview, rfl⟩ := List.mem_map.mp ha
    exact List.mem_map_of_mem hview
  have introduced : ∀ x ∈ s'.program.introduced, ¬H.env.Known x := fun x hx => hunknown x (by
    rw [hsecond', Program.introduced, List.flatMap_append, ← List.append_assoc]
    exact List.mem_append_left _ hx)
  -- The memory that the first kernel finds.
  have same : ∀ x ∈ H.env.arrays, memory[x]? = H.memory[x]? := fun x hx => hother x fun hmem => by
    obtain ⟨view, hview, rfl⟩ := List.mem_map.mp hmem
    exact R.wellNamed.hostNames _ (Or.inr (Or.inr (Or.inl hx))) (hcreated.generated view hview)
  have present : ∀ x ∈ partials.map (·.array), x ∈ memory := fun x hx => by
    obtain ⟨view, hview, rfl⟩ := List.mem_map.mp hx
    exact Std.ExtTreeMap.mem_iff_isSome_getElem?.mpr (by rw [hnew view hview]; rfl)
  have partials₁ : Partials { H with memory } Ts P partials := hcreated.zeroed hnew
  obtain ⟨k₁, hfirst, S₁⟩ := reducePoints_stage (R.of_memory same) A.of_memory
    (hH.of_layout fun x hx => Surroundings.layout?_congr (same x hx)) henv (by rw [hs])
    (fun a ha => present _ (allocated a (by rwa [hfirst'] at ha))) introduced hcontributions hmapped partials₁ hpoints
  obtain ⟨s₁, hrun₁, folded₁, hglobal₁⟩ := runKernel_folds A.of_memory.sized S₁ {}
  rw [mapped_congr same] at folded₁
  -- The memory that the second kernel finds.
  have layout : ∀ x, (Store.ofGlobal s₁.global).layout? .global x = (Store.ofGlobal memory).layout? .global x :=
    fun x => by
    rw [hglobal₁]
    exact Store.layout?_puts _ .global x
  have holds : ∀ g < P, (Store.ofGlobal s₁.global).HoldsAll partials g (Total.contributions (groupTotals Ts P G n) g) :=
    fun g hg => by
    rw [hglobal₁, groupTotals_contributions]
    exact (folded₁.holds g hg).ofGlobal hcreated.global
  have lawful : ∀ T ∈ groupTotals Ts P G n, T.Lawful H.scope := fun T hT => by
    obtain ⟨T', hT', rfl⟩ := List.mem_map.mp hT
    exact (R.lawful T' hT').of _
  rw [← groupTotals_combiners (P := P) (G := G) (n := n)] at hpartials
  obtain ⟨k₂, hsecond, S₂⟩ := reducePartials_stage (H := { H with memory := s₁.global }) A.of_memory R.wellNamed lawful
    (hH.of_layout fun x hx => (layout x).trans (Surroundings.layout?_congr (same x hx))) henv (by rw [hfirst, hs])
    (fun a ha => Surroundings.mem_of_layout? (present _ (allocated a (by rwa [hsecond', hfirst'] at ha)))
      (layout a.name)) hunknown
    (partials₁.of_layout groupTotals_types fun view _ => layout view.array) holds
    (R.map_type_dests.trans groupTotals_types.symm) Total.dests_global R.dests_apart
    (fun dest hdest => by
      obtain ⟨hknown, hreaches⟩ := R.of_mem_dests hdest
      refine hreaches.of_layout ?_
      rw [Total.dests_global dest hdest]
      exact (layout _).trans (Surroundings.layout?_congr (same _ hknown)))
    (fun dest hdest hmem => by
      obtain ⟨view, hview, he⟩ := List.mem_map.mp hmem
      exact R.wellNamed.hostNames _ (Or.inr (Or.inr (Or.inl (R.of_mem_dests hdest).1)))
        (he ▸ hcreated.generated view hview)) hpartials
  obtain ⟨s₂, hrun₂, folded₂, hglobal₂⟩ :=
    runKernel_folds (H := { H with memory := s₁.global }) A.of_memory.sized.alone S₂ s₁.stats
  refine ⟨k₁, k₂, s₁, s₂, ?_, hrun₁, hrun₂, ?_⟩
  · rw [hsecond, hfirst, hs]
    rfl
  · have none : (fun g : Nat => (List.range G).flatMap fun t =>
        (Sharing.contiguous.share G ((P + G - 1) / G) P t).flatMap fun _ => ([] : List Write)) = fun _ => [] :=
      funext fun _ => List.flatMap_eq_nil_iff.mpr fun _ _ => List.flatMap_eq_nil_iff.mpr fun _ _ => rfl
    rw [groupTotals_combined R.lawful R.ordered hP hG, none] at folded₂
    exact reduced_of_folded R hP hG hviews hother folded₁ hglobal₁ folded₂ hglobal₂

end Segmented

namespace Device

/-- A device that runs the program of a reduction by threads ends without a fault. The first element of each
    destination of a total is then the combination of what all points contribute, in the order of the points; what is
    mapped is written once for each point, and no other element of the arrays that there were before. -/
theorem run_reduction {m : Module} {config : Config} {p : Program} {d : Device} {pattern : List PatElem} {op : SegOp}
    {Ts : List Total} {P G n : Nat} (hm : m.ops = [.seg pattern op]) (hlevel : op.grid.level = .thread)
    (hp : m.lower config = .ok p) (hhost : (d.surroundings m.env p).Complete)
    (hbound : ∀ x ∈ op.allNames, ¬m.env.Known x) (R : op.Reduces (d.surroundings m.env p) pattern Ts n d.loopLimit)
    (A : op.Affords (d.surroundings m.env p) d P G n) :
    ∃ stats memory, d.run p = (.ok stats, { d with global := memory }) ∧
      op.Reduced (d.surroundings m.env p) pattern Ts n (p.allocations.map Allocation.view) memory (d.writes p) := by
  have unknown := Module.introduced_unknown (H := d.surroundings m.env p) hm hbound
    (fun x hx => R.wellNamed.hostNames x (hx.imp id Or.inl)) hp
  obtain ⟨σ, hrun, hprogram⟩ := m.lower_single hm hp
  rw [segmented, hlevel, R.kind] at hrun
  obtain ⟨parts, partials, s, s', hcreated, hs, hcontributions, hmapped, hpoints, hpartials⟩ :=
    Segmented.reduceByThreads_eq_ok R rfl hrun
  have allocations : p.allocations = partials.map fun view => ⟨view.array, view.type, op.grid.groupCount⟩ := by
    obtain ⟨_, hfirst⟩ := adds_reducePoints _ _ _ _ _ _ _ hpoints
    obtain ⟨_, hsecond⟩ := adds_reducePartials _ _ _ _ _ _ _ hpartials
    rw [hprogram, hsecond, hfirst, hs]
  have names : p.allocations.map (·.name) = partials.map (·.array) := by
    rw [allocations, List.map_map]
    rfl
  have lengths : ∀ a ∈ p.allocations, IsInt (d.surroundings m.env p).host a.length P := fun a ha => by
    rw [allocations] at ha
    obtain ⟨view, -, rfl⟩ := List.mem_map.mp ha
    exact A.sized.hostGroups
  obtain ⟨memory, hallocate, -, -, hother, hzeroed⟩ :=
    allocations_eq_ok (fun a ha => ⟨P, lengths a ha⟩) { global := d.global }
  rw [names] at hother hzeroed
  -- The partial totals lie in arrays that the program allocates, and these begin with zeros.
  have new : ∀ view ∈ partials, memory[view.array]? = some (.zeroed view.type P) := fun view hview => by
    have hmem : ⟨view.array, view.type, op.grid.groupCount⟩ ∈ p.allocations := by
      rw [allocations]
      exact List.mem_map_of_mem hview
    exact hzeroed hcreated.nodup _ hmem P (lengths _ hmem)
  have views : (p.allocations.map Allocation.view).map (·.array) = partials.map (·.array) := by
    rw [List.map_map, ← names]
    rfl
  obtain ⟨k₁, k₂, s₁, s₂, hkernels, hrun₁, hrun₂, hreduced⟩ :=
    Segmented.runKernels_fold R A hhost rfl hcreated views hs new hother
    (hprogram ▸ unknown) hcontributions hmapped hpoints hpartials
  obtain ⟨hrun, hwrites⟩ := run_of_two_kernels (by rw [hprogram, hkernels]) hallocate hrun₁ hrun₂
  exact ⟨s₂.stats, s₂.global, hrun, hwrites ▸ hreduced⟩

/-! ### Horner's rule -/

/-- Affine functions, one after the other. -/
def affine : Lambda where
  params := [⟨"a", .i64⟩, ⟨"b", .i64⟩, ⟨"c", .i64⟩, ⟨"d", .i64⟩]
  results := [.binary .mul (.var "a") (.var "c"), .binary .add (.binary .mul (.var "c") (.var "b")) (.var "d")]

/-- The function that multiplies by `a` and adds `b`. -/
def affinePair (a b : Int64) : affine.Tuple := ⟨[.i64 a, .i64 b], rfl⟩

theorem exists_affinePair (x : affine.Tuple) : ∃ a b, x = affinePair a b := by
  obtain ⟨vs, hvs⟩ := x
  match vs, hvs with
  | [.i64 a, .i64 b], _ => exact ⟨a, b, rfl⟩

def compose (x y : affine.Tuple) : affine.Tuple :=
  match x.1, y.1 with
  | [.i64 a, .i64 b], [.i64 c, .i64 d] => affinePair (a * c) (c * b + d)
  | _, _ => affinePair 1 0

/-- Digits in base two, the first one before all others. -/
def horner : Total where
  combiner := { lambda := affine, neutral := [.int 1, .int 0] }
  op := compose
  unit := affinePair 1 0
  value i := affinePair 2 (Int64.ofNat i)

theorem horner_lawful (σ : Scope) : horner.Lawful σ where
  computes := by
    intro x y
    obtain ⟨a, b, rfl⟩ := exists_affinePair x
    obtain ⟨c, d, rfl⟩ := exists_affinePair y
    exact .cons rfl (.cons rfl .nil)
  neutral := .cons rfl (.cons rfl .nil)
  assoc := ⟨fun x y z => by
    obtain ⟨a, b, rfl⟩ := exists_affinePair x
    obtain ⟨c, d, rfl⟩ := exists_affinePair y
    obtain ⟨e, f, rfl⟩ := exists_affinePair z
    show affinePair (a * c * e) (e * (c * b + d) + f) = affinePair (a * (c * e)) (c * e * b + (e * d + f))
    congr 1
    · exact Int64.mul_assoc a c e
    · rw [Int64.mul_add, Int64.add_assoc, ← Int64.mul_assoc, Int64.mul_comm e c]⟩
  identity := {
    left_id := fun x => by
      obtain ⟨a, b, rfl⟩ := exists_affinePair x
      show affinePair (1 * a) (a * 0 + b) = affinePair a b
      rw [Int64.one_mul, Int64.mul_zero, Int64.zero_add]
    right_id := fun x => by
      obtain ⟨a, b, rfl⟩ := exists_affinePair x
      show affinePair (a * 1) (1 * b + 0) = affinePair a b
      rw [Int64.mul_one, Int64.one_mul, Int64.add_zero] }

/-- Six points, by two groups of two threads. -/
def hornerOp : SegOp where
  kind := .reduce [horner.combiner]
  grid := ⟨.thread, .int 2, .int 2, .direct⟩
  space := ⟨"p", [("i", .int 6)]⟩
  stms := [.compute "y" .i64 (.binary .mul (.var "i") (.var "i"))]
  results := [.returns (.int 2), .returns (.var "i"), .returns (.var "y")]

def hornerPattern : List PatElem := [⟨"scale", .i64, []⟩, ⟨"number", .i64, []⟩, ⟨"squares", .i64, [.int 6]⟩]

def hornerEnv : HostEnv where
  arrays := ((({} : Table _).insert "scale" (.i64, [])).insert "number" (.i64, [])).insert "squares" (.i64, [.int 6])

def hornerMemory : Memory :=
  ((({} : Memory).insert "scale" (.zeroed .i64 1)).insert "number" (.zeroed .i64 1)).insert "squares" (.zeroed .i64 6)

def hornerHost : Surroundings := ⟨hornerEnv, (({} : Table Value)[·]?), hornerMemory⟩

def hornerModule : Module := ⟨hornerEnv, [.seg hornerPattern hornerOp]⟩

theorem horner_arrays {x : Ident} {r : ScalarType × List Operand} (h : hornerEnv.arrays[x]? = some r) :
    x = "squares" ∧ r = (.i64, [.int 6]) ∨ (x = "number" ∨ x = "scale") ∧ r = (.i64, []) := by
  unfold hornerEnv at h
  dsimp only at h
  rw [Table.getElem?_insert, Table.getElem?_insert, Table.getElem?_insert] at h
  split at h
  · rename_i hx
    exact .inl ⟨hx.symm, (Option.some.inj h).symm⟩
  · split at h
    · rename_i hx
      exact .inr ⟨.inl hx.symm, (Option.some.inj h).symm⟩
    · split at h
      · rename_i hx
        exact .inr ⟨.inr hx.symm, (Option.some.inj h).symm⟩
      · simp at h

theorem horner_unknown (x : Ident) : ¬hornerEnv.Known x := by
  simp [HostEnv.Known, hornerEnv]

theorem horner_mem_arrays {x : Ident} (h : x ∈ hornerEnv.arrays) : x = "squares" ∨ x = "number" ∨ x = "scale" :=
  (horner_arrays (Std.ExtTreeMap.getElem?_eq_some_getElem h)).imp (·.1) (·.1)

theorem horner_wellNamed : Segmented.WellNamed hornerOp hornerEnv where
  nodup := by decide
  unknown x _ := horner_unknown x
  names x hx := not_generated (by revert x; decide)
  hostNames x hx := by
    have arrays : x ∈ hornerEnv.arrays := by
      rcases hx with h | h | h | ⟨array, type, shape, h, e, he, hx⟩
      · exact absurd (Or.inl h) (horner_unknown x)
      · exact absurd (Or.inr h) (horner_unknown x)
      · exact h
      · rcases horner_arrays h with ⟨-, hr⟩ | ⟨-, hr⟩ <;> cases hr
        · cases List.mem_singleton.mp he
          simp [Operand.vars, Operand.int] at hx
        · cases he
    rcases horner_mem_arrays arrays with rfl | rfl | rfl <;> exact not_generated (by decide)

theorem horner_complete : hornerHost.Complete where
  scalars x type h := by simp [hornerHost, hornerEnv] at h
  arrays x hx := by rcases horner_mem_arrays hx with rfl | rfl | rfl <;> decide +kernel
  apart x _ := horner_unknown x

/-- What is mapped at a point. -/
def hornerWrites (f : Nat) :
    List Write := [⟨⟨.global, "squares", f⟩, (Value.i64 (Int64.ofNat f * Int64.ofNat f)).toBits⟩]

/-- What a point knows when its body is over. -/
def hornerKnown (f : Nat) : Env where
  scalars := ((hornerHost.scope.set "p" (.i64 (Int64.ofNat f))).set "i" (.i64 (Int64.ofNat f))).set "y"
    (.i64 (Int64.ofNat f * Int64.ofNat f))

theorem horner_evalAll (f : Nat) :
    BodyStm.evalAll hornerHost (hornerOp.start hornerHost [6] f) hornerOp.stms = some (hornerKnown f) := by
  have start : hornerOp.start hornerHost [6] f = {
      scalars := (hornerHost.scope.set "p" (.i64 (Int64.ofNat f))).set "i" (.i64 (Int64.ofNat f)) } :=
    congrArg (Env.mk · _) (Solo.start_scalars hornerOp (n := 6) (d := ("i", .int 6)) rfl)
  rw [start]
  rfl

theorem horner_squares : hornerHost.env.arrays["squares"]? = some (.i64, [.int 6]) := by decide +kernel

theorem horner_storesAt (f : Nat) :
    (Segmented.rest hornerOp 2).storesAt hornerHost (hornerPattern.drop 2) [6] f = some (hornerWrites f) := by
  have stored : BodyResult.storesOn hornerHost (hornerKnown f) f (⟨"squares", .i64, [.int 6]⟩, .returns (.var "y")) =
      some (hornerWrites f) := by
    unfold BodyResult.storesOn
    rw [horner_squares]
    rfl
  have body : BodyStm.evalAll hornerHost ((Segmented.rest hornerOp 2).start hornerHost [6] f)
    (Segmented.rest hornerOp 2).stms =
      some (hornerKnown f) := horner_evalAll f
  unfold Segmented.storesAt
  rw [body]
  show ([(⟨"squares", .i64, [.int 6]⟩, BodyResult.returns (.var "y"))].mapM
    (BodyResult.storesOn hornerHost (hornerKnown f) f)).bind
    (fun ws => some ws.flatten) = _
  rw [List.mapM_cons, stored]
  rfl

theorem horner_mem_visit {f : Nat} {w : Write} :
    w ∈ (Segmented.rest hornerOp 2).visit hornerHost (hornerPattern.drop 2) [6] f ↔ f < 6 ∧ w ∈ hornerWrites f := by
  unfold Segmented.visit
  rw [horner_storesAt]
  by_cases hf : f < 6 <;> simp [hf]

theorem horner_layout : (Store.ofGlobal hornerMemory).layout? .global "squares" = some (.i64, 6) := by decide +kernel

theorem horner_reduces (limit : Nat) : Segmented.Reduces hornerOp hornerHost hornerPattern [horner] 6 limit where
  kind := rfl
  wellNamed := horner_wellNamed
  indices := by decide
  plain := by simp [hornerOp, BodyStm.Plain, Exp.occurrences]
  literals := by simp [hornerOp, BodyStm.literal?]
  extents := .cons (IsInt.int 6) .nil
  sizes array type shape es h hes := by
    rcases horner_arrays h with ⟨-, hr⟩ | ⟨-, hr⟩ <;> cases hr
    · obtain rfl : es = [6] := Option.some.inj (hes.symm.trans (intsAt?_eq_some.mpr (.cons (IsInt.int 6) .nil)))
      unfold Fits
      decide
    · obtain rfl : es = [] := Option.some.inj (hes.symm.trans (intsAt?_eq_some.mpr .nil))
      unfold Fits
      decide
  lawful := List.forall_mem_singleton.mpr (horner_lawful _)
  ordered h := absurd (h horner (List.mem_singleton_self _)) (by decide)
  distinct := by decide
  dests := by
    have room : ∀ x ∈ ["scale", "number"], hornerHost.env.arrays[x]? = some (.i64, []) ∧
        (Store.ofGlobal hornerMemory).layout? .global x = some (.i64, 1) := by decide +kernel
    exact .cons ⟨⟨_, (room _ (by decide)).1⟩, .i64, 1, (room _ (by decide)).2, rfl, by decide⟩
      (.cons ⟨⟨_, (room _ (by decide)).1⟩, .i64, 1, (room _ (by decide)).2, rfl, by decide⟩ .nil)
  contributes f _ := ⟨hornerKnown f, horner_evalAll f, rfl⟩
  deposits := {
    lodged := fun f hf ρ hρ r hr type shape h => by
      cases (horner_evalAll f).symm.trans hρ
      cases List.mem_singleton.mp hr
      obtain ⟨-, hr⟩ | ⟨hx, -⟩ := horner_arrays h
      · cases hr
        exact ⟨.cons (IsInt.int 6) .nil,
          show Fits (([6] : List Nat).prod : Nat) from by unfold Fits; decide, fun vs hvs =>
          absurd (Option.mem_def.mp hvs).symm (Option.some_ne_none vs)⟩
      · rcases hx with hx | hx <;> exact absurd hx (by decide)
    stored := fun f _ => (horner_storesAt f).symm ▸ rfl
    apart := fun {f f' w w'} hw hw' he => by
      have hf := (horner_mem_visit.mp hw).2
      have hf' := (horner_mem_visit.mp hw').2
      cases List.mem_singleton.mp hf
      cases List.mem_singleton.mp hf'
      cases he
      exact ⟨rfl, rfl⟩
    room := fun f w hw type shape h => by
      obtain ⟨hf, hw⟩ := horner_mem_visit.mp hw
      cases List.mem_singleton.mp hw
      obtain ⟨-, hr⟩ | ⟨hx, -⟩ := horner_arrays h
      · cases hr
        exact ⟨.i64, 6, horner_layout, rfl, hf⟩
      · rcases hx with hx | hx <;> exact absurd (show "squares" = _ from hx) (by decide) }

theorem horner_affords (d : Device) (hd : d.checkRaces = false) (hwave : d.wave = 1) (hlimit : 62 ≤ d.loopLimit) :
    Segmented.Affords hornerOp hornerHost d 2 2 6 where
  sized := ⟨by decide, by decide, IsInt.int 2, IsInt.int 2, IsInt.int 2, IsInt.int 2⟩
  unchecked := hd
  limit := hlimit
  wave := .inr ⟨0, by rw [hwave]; decide⟩
  width := by decide
  points := ⟨by unfold Fits; decide, Nat.le_trans (by decide) hlimit⟩
  partials := ⟨by unfold Fits; decide, Nat.le_trans (by decide) hlimit⟩

/-- The digits 0, 1, ..., 5 in base two: the last thread of the first kernel has no digit, and all others have two. -/
theorem horner_reduced :
    let d : Device := { wave := 1, global := hornerMemory }
    ∃ p stats d', hornerModule.lower {} = .ok p ∧ d.run p = (.ok stats, d') ∧
      (Store.ofGlobal d'.global).HoldsAll [⟨"scale", .i64, .global, false⟩, ⟨"number", .i64, .global, false⟩] 0
        [.i64 64, .i64 57] ∧
      ∀ x < 6, (Store.ofGlobal d'.global).bits? ⟨.global, "squares", x⟩ =
        some (Value.i64 (Int64.ofNat (x * x))).toBits := by
  intro d
  obtain ⟨p, hlower, htuning, hconstants, hallocations⟩ : ∃ p ∈ (hornerModule.lower {}).toOption, p.tuning.isEmpty ∧
      (constants p).isEmpty ∧ "squares" ∉ (p.allocations.map Allocation.view).map (·.array) := by decide +kernel
  have hp := ok_of_toOption hlower
  have hhost : d.surroundings hornerModule.env p = hornerHost := by
    unfold surroundings hostEnv
    rw [List.isEmpty_iff.mp htuning, List.isEmpty_iff.mp hconstants]
    rfl
  obtain ⟨stats, memory, hrun, hreduced⟩ :=
    run_reduction rfl rfl hp (hhost ▸ horner_complete) (fun x _ => horner_unknown x)
    (hhost ▸ horner_reduces d.loopLimit) (hhost ▸ horner_affords d rfl rfl (by decide))
  refine ⟨p, stats, _, hp, hrun, hreduced.totals, fun x hx => ?_⟩
  rw [hhost] at hreduced
  have mapped : (List.range 6).flatMap (Segmented.mapped hornerOp hornerHost hornerPattern [horner] 6) =
    (List.range 6).flatMap hornerWrites :=
    List.flatMap_congr fun f hf => by
      unfold Segmented.mapped Segmented.visit
      rw [if_pos (show f < [6].prod from List.mem_range.mp hf)]
      exact congrArg (Option.getD · []) (horner_storesAt f)
  have other : ¬tupleSlots (Total.dests [horner] hornerPattern) 0 ⟨.global, "squares", x⟩ := fun ⟨view, hview, he⟩ => by
    have hmem := List.mem_map_of_mem (f := (·.array)) hview
    rw [Total.map_array_dests, ← show "squares" = view.array from congrArg Slot.array he] at hmem
    exact absurd hmem (by decide)
  refine (hreduced.frame ⟨.global, "squares", x⟩ rfl hallocations other).trans ?_
  rw [mapped]
  have squares : ∀ x < 6, ((Store.ofGlobal hornerMemory).puts ((List.range 6).flatMap hornerWrites)).bits?
    ⟨.global, "squares", x⟩ =
      some (Value.i64 (Int64.ofNat (x * x))).toBits := by decide +kernel
  exact squares x hx

/-- The sum of the indices of four points. -/
def indexSum (flat : Ident) : Module where
  env := { arrays := ({} : Table _).insert "total" (.i64, [.int 1]) }
  ops := [.seg [⟨"total", .i64, [.int 1]⟩] {
    kind := .reduce [{
      lambda := { params := [⟨"x", .i64⟩, ⟨"y", .i64⟩], results := [.binary .add (.var "x") (.var "y")] }
      neutral := [.int 0] }]
    grid := ⟨.thread, .int 1, .int 4, .direct⟩
    space := ⟨flat, [("i", .int 4)]⟩
    stms := []
    results := [.returns (.var "i")] }]

/-- An index that has the name of the flat index is reset before it is computed from itself, so every point
    contributes zero. -/
theorem indexSum_goes_wrong :
    let d : Device := { wave := 1, global := ({} : Memory).insert "total" (.zeroed .i64 1) }
    [0, 1, 2, 3].foldl (· + ·) (0 : Int64) = 6 ∧ ∃ p, (indexSum "i").lower {} = .ok p ∧ (d.run p).1.isOk = true ∧
      (d.run p).2.global["total"]?.map Buffer.values = some [.i64 0] := by
  intro d
  refine ⟨by decide, ?_⟩
  obtain ⟨p, hp, h⟩ : ∃ p ∈ ((indexSum "i").lower {}).toOption, (d.run p).1.isOk = true ∧
      (d.run p).2.global["total"]?.map Buffer.values = some [.i64 0] := by decide +kernel
  exact ⟨p, ok_of_toOption hp, h⟩

end Device
end SegKernel
