import SegKernel.Proofs.Collectives.Registers
import SegKernel.Proofs.Coverage.Points
import SegKernel.Proofs.Maps.Frames

/-! What a kernel computes before it visits points, as code that a group runs to its end. It writes nothing, and the
    launch knows afterwards the indices of the threads in some spaces and the numbers of the chunks of others. -/

namespace SegKernel
open Exp Lowering

/-- What is computed in advance for a space of extents `es` inside can be computed by groups of `G` threads. -/
def Coverage.Precomputable (c : Coverage) (es : List Nat) (G : Nat) : Prop :=
  match c with
  | virtualize => Fits ((es.prod + G : Nat) : Int)
  | direct | full => (∀ e ∈ es.tail, 0 < e) ∧ Fits es.tail.prod

/-- What can be computed in advance for the operations in the body of a group can be computed, in groups of `G`
    threads. -/
def BodyStm.Precomputable (H : Surroundings) (G : Nat) (stms : List BodyStm) : Prop :=
  ∀ pattern inner, .nested pattern inner ∈ stms → inner.space.shape.all H.env.isInvariant = true →
    ∃ es, List.Forall₂ (IsInt H.scope) inner.space.dimExps (ints es) ∧ inner.grid.coverage.Precomputable es G

/-- A launch without what was computed in advance. -/
def Launch.bare (launch : Launch) : Launch := { launch with pointIds := [], chunkCounts := [] }

namespace Team
variable {op : SegOp} {H : Surroundings} {G : Team} {g n m : Nat} {launch : Launch} {σ τ : Nat → Scope}
  {found : Launch × List Stmt}

/-- What a launch knows in advance is so for all threads. -/
structure Foresees (G : Team) (H : Surroundings) (launch : Launch) (σ : Nat → Scope) : Prop where
  ids : ∀ p ∈ launch.pointIds, ∃ es : List Nat, List.Forall₂ (IsInt H.scope) (p.1.map Operand.toExp) (ints es) ∧
    ∀ t < G.size, List.Forall₂ (IsInt (σ t)) p.2 (ints (coords es t))
  counts : ∀ p ∈ launch.chunkCounts, ∃ es : List Nat, List.Forall₂ (IsInt H.scope) (p.1.map Operand.toExp) (ints es) ∧
    ∀ t < G.size, IsInt (σ t) p.2 (((es.prod + G.size - 1) / G.size : Nat) : Int)

theorem Foresees.mono (h : G.Foresees H launch σ) (hle : ∀ t < G.size, (σ t).Le (τ t)) : G.Foresees H launch τ where
  ids p hp := by
    obtain ⟨es, hes, hknown⟩ := h.ids p hp
    exact ⟨es, hes, fun t ht => (hknown t ht).imp fun _ _ hx => hx.mono (hle t ht)⟩
  counts p hp := by
    obtain ⟨es, hes, hknown⟩ := h.counts p hp
    exact ⟨es, hes, fun t ht => (hknown t ht).mono (hle t ht)⟩

/-- What is looked up in advance for a shape is so for the values that its extents have. -/
theorem Foresees.pointIds? {shape : List Operand} {es : List Nat} {ids : List Exp} (h : G.Foresees H launch σ)
    (hshape : List.Forall₂ (IsInt H.scope) (shape.map Operand.toExp) (ints es)) (hids : ids ∈ launch.pointIds? shape)
    {t : Nat} (ht : t < G.size) : List.Forall₂ (IsInt (σ t)) ids (ints (coords es t)) := by
  obtain ⟨p, hp, rfl⟩ := Option.map_eq_some_iff.mp hids
  obtain ⟨es', hes', hknown⟩ := h.ids p (List.mem_of_find?_eq_some hp)
  have hfound : p.1 = shape := by simpa using List.find?_some hp
  obtain rfl : es' = es := isInts_unique hes' (hfound ▸ hshape)
  exact hknown t ht

theorem Foresees.chunkCount? {shape : List Operand} {es : List Nat} {count : Exp} (h : G.Foresees H launch σ)
    (hshape : List.Forall₂ (IsInt H.scope) (shape.map Operand.toExp) (ints es))
    (hcount : count ∈ launch.chunkCount? shape) {t : Nat} (ht : t < G.size) :
    IsInt (σ t) count (((es.prod + G.size - 1) / G.size : Nat) : Int) := by
  obtain ⟨p, hp, rfl⟩ := Option.map_eq_some_iff.mp hcount
  obtain ⟨es', hes', hknown⟩ := h.counts p (List.mem_of_find?_eq_some hp)
  have hfound : p.1 = shape := by simpa using List.find?_some hp
  obtain rfl : es' = es := isInts_unique hes' (hfound ▸ hshape)
  exact hknown t ht

/-- Nothing is known in advance. -/
theorem foresees_nothing (hids : launch.pointIds = []) (hcounts : launch.chunkCounts = []) : G.Foresees H launch σ :=
  ⟨by simp [hids], by simp [hcounts]⟩

/-- A launch that knows of its sizes and places what another one knows, and code with which the group computes what it
    knows in advance. Only names that were taken for this are known more. -/
structure Prepares (G : Team) (H : Surroundings) (launch : Launch) (n : Nat) (σ : Nat → Scope) (m : Nat)
    (found : Launch × List Stmt) : Prop where
  launch : found.1.bare = launch.bare
  shared : ∀ s ∈ found.2, s.sharedArrays = []
  code : ∃ τ : Nat → Scope, (∀ t < G.size, (σ t).Le (τ t)) ∧ (∀ t < G.size, ∀ x, ¬Taken n m x → τ t x = σ t x) ∧
    (∀ store, G.LeadsAll (G.Knowing σ) store found.2 (G.Knowing τ) (· = [])) ∧ G.Foresees H found.1 τ

namespace Prepares

theorem localId (h : G.Prepares H launch n σ m found) : found.1.localId = launch.localId := by
  have := congrArg Launch.localId h.launch
  exact this

theorem groupId (h : G.Prepares H launch n σ m found) : found.1.groupId = launch.groupId := by
  have := congrArg Launch.groupId h.launch
  exact this

theorem numGroups (h : G.Prepares H launch n σ m found) : found.1.numGroups = launch.numGroups := by
  have := congrArg Launch.numGroups h.launch
  exact this

theorem groupSize (h : G.Prepares H launch n σ m found) : found.1.groupSize = launch.groupSize := by
  have := congrArg Launch.groupSize h.launch
  exact this

theorem start : G.Prepares H launch n σ n (launch.bare, []) where
  launch := rfl
  shared := List.forall_mem_nil _
  code := ⟨σ, fun _ _ => .refl _, fun _ _ _ _ => rfl, fun _ => leadsAll_nil (fun _ _ _ => id) rfl,
    foresees_nothing rfl rfl⟩

/-- What is known in the end of the place in the launch. -/
theorem oriented (h : G.Prepares H launch n σ m found) (hm : n ≤ m)
    (hσ : G.Oriented op H launch g n σ) (hle : ∀ t < G.size, (σ t).Le (τ t))
    (hothers : ∀ t < G.size, ∀ x, ¬Taken n m x → τ t x = σ t x) :
    G.Oriented op H found.1 g m τ where
  around t ht := {
    host := (hσ.around t ht).host.trans (hle t ht)
    before := fun x hx => by
      rw [hothers t ht x ?_]
      · exact (hσ.around t ht).before x (hx.mono hm)
      · rintro ⟨stem, -, k, -, hk, rfl⟩
        exact hx.ne_numbered hk rfl
    only := fun x hx hgenerated => by
      rw [hothers t ht x fun htaken => hgenerated htaken.new.generated]
      exact (hσ.around t ht).only x hx hgenerated }
  localId t ht := hle t ht _ _ (h.localId ▸ hσ.localId t ht)
  groupId t ht := hle t ht _ _ (h.groupId ▸ hσ.groupId t ht)

/-- One more statement, which gives values to new names. -/
theorem extend {k : Nat} (h : G.Prepares H launch n σ m found) (hk : m ≤ k) {next : Launch} {stmt : Stmt}
    (hnext : next.bare = found.1.bare) (hshared : stmt.sharedArrays = [])
    (hstmt : ∀ τ : Nat → Scope, (∀ t < G.size, (σ t).Le (τ t)) → (∀ t < G.size, ∀ x, ¬Taken n m x → τ t x = σ t x) →
      G.Foresees H found.1 τ → ∃ υ : Nat → Scope, (∀ t < G.size, (τ t).Le (υ t)) ∧
        (∀ t < G.size, ∀ x, ¬Taken m k x → υ t x = τ t x) ∧
        (∀ store, G.Leads (G.Knowing τ) store stmt (G.Knowing υ) (· = [])) ∧ G.Foresees H next υ) (hn : n ≤ m) :
    G.Prepares H launch n σ k (next, found.2 ++ [stmt]) where
  launch := hnext.trans h.launch
  shared := List.forall_mem_append.mpr ⟨h.shared, List.forall_mem_singleton.mpr hshared⟩
  code := by
    obtain ⟨τ, hle, hothers, hcode, hforesees⟩ := h.code
    obtain ⟨υ, hle', hothers', hleads, hforesees'⟩ := hstmt τ hle hothers hforesees
    refine ⟨υ, fun t ht => (hle t ht).trans (hle' t ht), fun t ht x hx => ?_, fun store => ?_, hforesees'⟩
    · rw [hothers' t ht x fun hx' => hx (hx'.mono hn (Nat.le_refl k)), hothers t ht x fun hx' =>
        hx (hx'.mono (Nat.le_refl n) hk)]
    · refine (hcode store).append fun ws hws => ?_
      subst hws
      exact leadsAll_singleton.mpr (hleads _)

end Prepares

section Steps
variable {es : List Nat} {dims : List Exp} {known : Launch} {code : List Stmt} {shape : List Operand}

/-- The number of the chunks of a space. -/
theorem Prepares.addCount (h : G.Prepares H launch n σ m (known, code)) (hn : n ≤ m) (hσ : G.Oriented op H launch g n σ)
    (hgroupSize : IsInt H.scope launch.groupSize G.size)
    (hes : List.Forall₂ (IsInt H.scope) (shape.map Operand.toExp) (ints es))
    (hfits : Fits ((es.prod + G.size : Nat) : Int)) :
    G.Prepares H launch n σ (m + 1)
      ({ known with chunkCounts := (shape, .var (numbered "chunk_iters" m)) :: known.chunkCounts },
        code ++ [.declareInit (numbered "chunk_iters" m) .i64
          ((Exp.product (shape.map Operand.toExp)).divUp known.groupSize)]) := by
  have hsame : known.groupSize = launch.groupSize := h.groupSize
  refine h.extend (Nat.le_succ m) rfl rfl (fun τ hle hothers hforesees => ?_) hn
  have host : ∀ t < G.size, H.scope.Le (τ t) := fun t ht => (hσ.around t ht).host.trans (hle t ht)
  have new : ∀ t < G.size, τ t (numbered "chunk_iters" m) = none := by
    intro t ht
    rw [hothers t ht _ fun htaken => htaken.ne_numbered (Nat.le_refl m) rfl]
    exact (hσ.around t ht).before.fresh (by decide) hn
  have chunks : ∀ t < G.size, IsInt (τ t) ((Exp.product (shape.map Operand.toExp)).divUp known.groupSize)
      (((es.prod + G.size - 1) / G.size : Nat) : Int) := by
    intro t ht
    rw [hsame]
    refine (isInt_product (List.forall₂_map_right_iff.mp (hes.imp fun _ _ hd => hd.mono (host t ht))) ?_).divUp
      (hgroupSize.mono (host t ht)) G.pos (by exact_mod_cast hfits)
    unfold Fits at *
    omega
  refine ⟨fun t => (τ t).set (numbered "chunk_iters" m) (.i64 (Int64.ofNat ((es.prod + G.size - 1) / G.size))),
    fun t ht => Scope.le_set (new t ht), fun t _ x hx => ?_,
    fun store => Leads.declareInit new (fun t ht => (chunks t ht).eval_nat) fun _ _ => rfl, ?_⟩
  · refine Scope.set_of_ne fun e => hx ?_
    exact ⟨"chunk_iters", by decide, m, Nat.le_refl m, Nat.lt_succ_self m, e.symm⟩
  · have later := hforesees.mono fun t ht =>
      Scope.le_set (v := .i64 (Int64.ofNat ((es.prod + G.size - 1) / G.size))) (new t ht)
    exact ⟨later.ids, List.forall_mem_cons.mpr
      ⟨⟨es, hes, fun t ht => .var_nat Scope.set_self (chunks t ht).fits⟩, later.counts⟩⟩

/-- The indices of the threads in a space. -/
theorem Prepares.addIds {k : Nat} (h : G.Prepares H launch n σ m (known, code)) (hn : n ≤ m) (hk : m ≤ k)
    (hσ : G.Oriented op H launch g n σ) (hgroupSize : IsInt H.scope launch.groupSize G.size) {ids : List Ident}
    (hids : Registers m k shape.length ids) (hes : List.Forall₂ (IsInt H.scope) (shape.map Operand.toExp) (ints es))
    (hpos : ∀ e ∈ es.tail, 0 < e) (hfits : Fits es.tail.prod) :
    G.Prepares H launch n σ k ({ known with pointIds := (shape, ids.map .var) :: known.pointIds },
      code ++ [.unflatten (ids.zip (shape.map Operand.toExp)) known.ltid]) := by
  have hsame : known.localId = launch.localId := h.localId
  have hlength : ids.length = (shape.map Operand.toExp).length := by rw [hids.length, List.length_map]
  have names : (ids.zip (shape.map Operand.toExp)).map Prod.fst = ids := List.map_fst_zip (Nat.le_of_eq hlength)
  have dims : (ids.zip (shape.map Operand.toExp)).map Prod.snd = shape.map Operand.toExp :=
    List.map_snd_zip (Nat.le_of_eq hlength.symm)
  refine h.extend hk rfl (Stmt.Private.unflatten (K := fun _ => False) fun _ _ h => h).shared
    (fun τ hle hothers hforesees => ?_) hn
  have host : ∀ t < G.size, H.scope.Le (τ t) := fun t ht => (hσ.around t ht).host.trans (hle t ht)
  have fits : ∀ t < G.size, ∀ i ≤ t, Fits (i : Nat) := by
    have := hgroupSize.fits
    intro t ht i hi
    unfold Fits at *
    omega
  -- The identifiers were taken after the scope of the group was fixed, so no thread knows them.
  have new : ∀ t < G.size, ∀ x ∈ ids, τ t x = none := by
    intro t ht x hx
    obtain ⟨stem, hstem, j, hj, -, rfl⟩ := hids.taken x hx
    rw [hothers t ht _ fun htaken => htaken.ne_numbered hj rfl]
    exact (hσ.around t ht).before.fresh hstem (Nat.le_trans hn hj)
  have unknown : ∀ t < G.size, ∀ e ∈ ids.zip (indexValues (coords es t)), τ t e.1 = none := fun t ht e he =>
    new t ht _ (List.of_mem_zip he).1
  have grows : ∀ t < G.size, (τ t).Le ((τ t).sets (ids.zip (indexValues (coords es t)))) := fun t ht =>
    (Scope.Le.refl _).sets_right (unknown t ht)
  refine ⟨fun t => (τ t).sets (ids.zip (indexValues (coords es t))), grows, fun t _ x hx => ?_, fun store => ?_, ?_⟩
  · exact Scope.sets_of_not_mem fun e he hname => hx (hname ▸ hids.taken _ (List.of_mem_zip he).1)
  · refine Leads.silent fun t ht th hth => ?_
    have position : IsInt (τ t) known.ltid t :=
      .var_nat (hle t ht _ _ (by rw [hsame]; exact hσ.localId t ht)) (fits t ht t (Nat.le_refl t))
    have extents : List.Forall₂ (fun d (e : Nat) => IsInt (τ t) d.2 e) (ids.zip (shape.map Operand.toExp)) es := by
      have := List.forall₂_map_right_iff.mp (hes.imp fun _ _ hd => hd.mono (host t ht))
      rw [← dims] at this
      exact List.forall₂_map_left_iff.mp this
    refine Solo.ensures_unflatten hth hth position extents hpos hfits (fun d hd => new t ht _ (List.of_mem_zip hd).1)
      fun th' hth' _ _ => ⟨?_, rfl⟩
    rwa [names] at hth'
  · have later := hforesees.mono grows
    refine ⟨List.forall_mem_cons.mpr ⟨⟨es, hes, fun t ht => ?_⟩, later.ids⟩, later.counts⟩
    refine isInts_sets hids.nodup ?_ fun i hi => fits t ht i (coords_le i hi)
    rw [length_coords, hids.length]
    simpa using hes.length_eq

/-- What is computed for the space of one statement. -/
theorem prepares_step (hσ : G.Oriented op H launch g n σ) (hgroupSize : IsInt H.scope launch.groupSize G.size)
    {stms : List BodyStm} (hstms : BodyStm.Precomputable H G.size stms) {stm : BodyStm} (hstm : stm ∈ stms) (hn : n ≤ m)
    (hfound : G.Prepares H launch n σ m found) :
    Fresh.At m (Launch.precomputeStep H.env found stm) (G.Prepares H launch n σ) := by
  obtain ⟨known, code⟩ := found
  cases stm with
  | nested pattern inner =>
    unfold Launch.precomputeStep
    dsimp only
    split
    · exact .pure hfound
    rename_i hshape
    obtain ⟨es, hes, hcompute⟩ := hstms pattern inner hstm (by simpa using hshape)
    have shape : inner.space.shape.map Operand.toExp = inner.space.dimExps := by
      simp [IterationSpace.shape, IterationSpace.dimExps]
    rw [← shape] at hes
    split
    -- A space that is covered directly is unflattened for each thread, and the extents after the first divide.
    · rename_i hvirtualize
      rw [hvirtualize] at hcompute
      split
      · exact .pure hfound
      exact .take <| .pure (hfound.addCount hn hσ hgroupSize hes hcompute)
    · rename_i hvirtualize
      obtain ⟨hpos, htail⟩ : (∀ e ∈ es.tail, 0 < e) ∧ Fits es.tail.prod := by
        cases hcoverage : inner.grid.coverage with
        | virtualize => exact absurd hcoverage hvirtualize
        | direct | full =>
          rw [hcoverage] at hcompute
          exact hcompute
      split
      · exact .pure hfound
      exact (Fresh.At.registers (by decide) _).bind fun k ids hk hids =>
        .pure (hfound.addIds hn hk hσ hgroupSize hids hes hpos htail)
  | _ => exact .pure hfound

/-- What is computed for the statements of a body. -/
theorem prepares_precompute (hσ : G.Oriented op H launch g n σ) (hgroupSize : IsInt H.scope launch.groupSize G.size)
    {stms : List BodyStm} (hstms : BodyStm.Precomputable H G.size stms) :
    Fresh.At n (launch.precompute H.env stms) fun m r => G.Prepares H launch n σ m (r.1, [r.2]) := by
  refine (Fresh.At.foldlM Prepares.start fun stm hmem m found hm hfound =>
    prepares_step hσ hgroupSize hstms hmem hm hfound).bind fun m (known, code) _ hfound => .pure ?_
  obtain ⟨τ, hle, hothers, hcode, hforesees⟩ := hfound.code
  have shared : (Stmt.block code).sharedArrays = [] := by
    rw [Stmt.sharedArrays_block, List.flatMap_eq_nil_iff]
    exact hfound.shared
  refine ⟨hfound.launch, List.forall_mem_singleton.mpr ?_, τ, hle, hothers, fun store => leadsAll_singleton.mpr ?_,
    hforesees⟩
  · split
    · rfl
    · exact shared
  · have block := leads_block.mpr (hcode store)
    split
    · rename_i hempty
      rwa [List.isEmpty_iff.mp hempty] at block
    · exact leads_comment.mpr block

end Steps

/-- What a kernel computes before it visits points. -/
theorem prepares_ahead (hσ : G.Oriented op H launch g n σ) (hgroupSize : IsInt H.scope launch.groupSize G.size)
    (hforesees : G.Foresees H launch σ) (hstms : op.grid.level = .group → BodyStm.Precomputable H G.size op.stms) :
    Fresh.At n (op.ahead H.env launch) fun m r => G.Prepares H launch n σ m (r.1, [r.2]) := by
  unfold Segmented.ahead
  split
  · have nothing : ∀ store, G.Leads (G.Knowing σ) store (.block []) (G.Knowing σ) (· = []) := fun _ =>
      leads_block.mpr (leadsAll_nil (fun _ _ _ => id) rfl)
    exact .pure ⟨rfl, List.forall_mem_singleton.mpr rfl, σ, fun _ _ => .refl _, fun _ _ _ _ => rfl,
      fun store => leadsAll_singleton.mpr (nothing store), hforesees⟩
  · rename_i hlevel
    exact prepares_precompute hσ hgroupSize (hstms hlevel)

theorem frame_eq (op : SegOp) (env : HostEnv) (n : Nat) (code : Stmt) : op.frame env n code =
    .block [((Launch.start op.grid.groupCount op.grid.groupWidth).run n).1.2,
      ((op.ahead env ((Launch.start op.grid.groupCount op.grid.groupWidth).run n).1.1).run (n + 4)).1.2,
      ((((op.ahead env ((Launch.start op.grid.groupCount op.grid.groupWidth).run n).1.1).run (n + 4)).1.1.coverBy
        op.grid.level
        op.grid.coverage op.space).run
          ((op.ahead env ((Launch.start op.grid.groupCount op.grid.groupWidth).run n).1.1).run
          (n + 4)).2).1.wrap code] := rfl

section Frame
variable (hop : op.WellNamed H.env) (hcaptured : G.ctx.captured = H.env.bindings H.host)
  (hgroup : G.ctx.group = Int64.ofNat g) (hgroupSize : IsInt H.scope op.grid.groupWidth G.size)
  (hstms : op.grid.level = .group → BodyStm.Precomputable H G.size op.stms)
include hop hcaptured hgroup hgroupSize hstms

/-- The group runs the frame of a map as it covers the space when it has found its place and knows what is computed in
    advance. -/
theorem leads_frame {T' : Nat → Thread → Prop} {R : List Write → Prop} {store : Store} (code : Stmt)
    (hcover : ∀ found τ, found = (op.ahead H.env ((Launch.start op.grid.groupCount op.grid.groupWidth).run n).1.1).run
      (n + 4) →
      found.1.1.numGroups = op.grid.groupCount → found.1.1.groupSize = op.grid.groupWidth →
      G.Oriented op H found.1.1 g found.2 τ → G.Foresees H found.1.1 τ → G.Leads (G.Knowing τ) store
        (((found.1.1.coverBy op.grid.level op.grid.coverage op.space).run found.2).1.wrap code) T' R) :
    G.Leads (fun _ th => th = {}) store (op.frame H.env n code) T' R := by
  obtain ⟨hentry, horiented⟩ := leads_entry (G := G) (m := store) (n := n)
    hop hcaptured hgroup op.grid.groupCount op.grid.groupWidth
  obtain ⟨hle, hahead⟩ := prepares_ahead horiented hgroupSize (foresees_nothing rfl rfl) hstms
  rw [frame_eq]
  generalize (op.ahead H.env ((Launch.start op.grid.groupCount op.grid.groupWidth).run n).1.1).run (n + 4) =
    found at hahead hle hcover
  obtain ⟨τ, hτ, hothers, hcode, hforesees⟩ := hahead.code
  exact leads_block.mpr (.after_silent hentry
    (.after_silent (leadsAll_singleton.mp (hcode store)) (leadsAll_singleton.mpr
    (hcover found τ rfl hahead.numGroups hahead.groupSize (hahead.oriented hle horiented hτ hothers) hforesees))))

/-- Hoisting from the frame of a map hoists from the code of the points. -/
theorem mimics_frame (n : Nat) (code : Stmt) :
    Mimics G.ctx G.ctx (op.frame H.env n code).dropShared (op.frame H.env n code.dropShared) := by
  obtain ⟨-, horiented⟩ := leads_entry (G := G) (m := .ofGlobal {}) (n := n)
    hop hcaptured hgroup op.grid.groupCount op.grid.groupWidth
  obtain ⟨-, hahead⟩ := prepares_ahead horiented hgroupSize (foresees_nothing rfl rfl) hstms
  have hnone := hahead.shared _ (List.mem_singleton_self _)
  rw [frame_eq, frame_eq]
  generalize (op.ahead H.env ((Launch.start op.grid.groupCount op.grid.groupWidth).run n).1.1).run (n + 4) =
    found at hnone
  have hnew : ∀ x, False → ¬Generated x := fun _ h => h.elim
  have entry := (private_entry hnew op.grid.groupCount op.grid.groupWidth n).shared
  have cover : (((found.1.1.coverBy op.grid.level op.grid.coverage op.space).run found.2).1.wrap .skip).sharedArrays =
    [] := by
    cases op.grid.level with
    | thread | group => exact (private_coverGroups hnew (fun _ _ h => h) .skip _).shared
  exact mimics_dropShared_block.trans (.block
    (.cons (mimics_dropShared entry) (.cons (mimics_dropShared hnone) (.cons (mimics_wrap_dropShared cover) .nil))))

end Frame
end Team
end SegKernel
