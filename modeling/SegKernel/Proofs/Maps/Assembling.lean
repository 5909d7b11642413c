import Mathlib.Data.Multiset.Bind
import SegKernel.Proofs.Coverage.Precomputing
import SegKernel.Proofs.Execution.Launching
import SegKernel.Proofs.Maps.Preparing
import SegKernel.Proofs.Maps.Results
import SegKernel.Proofs.Maps.Tiles

/-! The code with which a group writes its tile. Its threads take the spots of the tile chunk by chunk, or all at once
    if there are as many spots as threads, and write those that lie inside the destination, each one once. -/

namespace SegKernel
open Exp

/-! ### The turns of a thread -/

/-- What a thread of `G` makes of the numbers below `N` of which it has the turn. -/
def turns {β : Type} (w : Nat → List β) (N G t : Nat) : List β :=
  (List.range ((N + G - 1) / G)).flatMap fun c => if c * G + t < N then w (c * G + t) else []

theorem flatMap_comm_perm {α β γ : Type} (xs : List α) (ys : List β) (f : α → β → List γ) :
    (xs.flatMap fun x => ys.flatMap (f x)).Perm (ys.flatMap fun y => xs.flatMap fun x => f x y) := by
  have := Multiset.bind_bind (f := fun x y => (f x y : Multiset γ)) (xs : Multiset α) (ys : Multiset β)
  simpa only [Multiset.coe_bind, Multiset.coe_eq_coe] using this

/-- All threads together make what is made of all numbers. -/
theorem turns_perm {β : Type} (w : Nat → List β) (N : Nat) {G : Nat} (hG : 0 < G) :
    ((List.range G).flatMap (turns w N G)).Perm ((List.range N).flatMap w) := by
  have visits := (Launch.visits_perm (N := N) List.nodup_range (fun _ => List.mem_range) hG).flatMap_right
    fun p => w p.2
  refine (flatMap_comm_perm _ _ _).trans (List.Perm.trans (List.Perm.of_eq ?_) (visits.trans (List.Perm.of_eq ?_)))
  · rw [Launch.visits, List.flatMap_assoc]
    refine List.flatMap_congr fun c _ => ?_
    rw [List.flatMap_map]
    generalize List.range G = ts
    induction ts with
    | nil => rfl
    | cons t ts ih =>
      rw [List.flatMap_cons, ih, List.filter_cons]
      by_cases h : c * G + t < N <;> simp [h]
  · rw [List.flatMap_map]

/-! ### A space by the threads of a group -/

namespace Solo
variable {E : Solo} {B : Scope} {A : Memory → List Write → Prop} {Q : Claim} {th : Thread} {ws : List Write}
  {s : IterationSpace} {ds : List Nat}
  {f n G : Nat} {code : Stmt} {launch : Launch}

/-- Code with which a thread finds the indices of the point at a position, from what it knew before that. -/
def Finds (E : Solo) (B : Scope) (s : IterationSpace) (ds : List Nat) (f : Nat) (indices : Stmt) : Prop :=
  ∀ (σ : Scope) (th : Thread) (ws : List Write) (Q : Claim), σ.Le (E.scope th) → B.Le (E.scope th) →
    (∀ th', (σ.sets (s.indices.zip (indexValues (coords ds f)))).Le (E.scope th') → B.Le (E.scope th') →
      th'.arrays = th.arrays → Q th' ws) → E.Ensures indices Q th ws

/-- The indices are computed from the position. -/
theorem finds_unflatten {flat : Exp} (hextents : List.Forall₂ (IsInt B) s.dimExps (ints ds))
    (hpos : ∀ d ∈ ds.tail, 0 < d) (hfits : Fits ds.tail.prod) (hnew : ∀ x ∈ s.indices, B x = none)
    (hflat : IsInt B flat f) :
    E.Finds B s ds f (.unflatten s.extents flat) := by
  have names : s.extents.map (·.1) = s.indices := by simp [IterationSpace.extents, IterationSpace.indices]
  have extents : List.Forall₂ (fun d (e : Nat) => IsInt B d.2 e) s.extents ds := by
    rw [IterationSpace.dimExps, List.forall₂_map_left_iff, ints, List.forall₂_map_right_iff] at hextents
    exact List.forall₂_map_left_iff.mpr hextents
  have unknown : ∀ d ∈ s.extents, B d.1 = none := fun d hd => hnew _ (names ▸ List.mem_map_of_mem hd)
  exact fun σ th ws Q hσ hB h => ensures_unflatten hσ hB hflat extents hpos hfits unknown (by rwa [names])

/-- The indices were found before. -/
theorem finds_known {ids : List Exp} (hids : List.Forall₂ (IsInt B) ids (ints (coords ds f)))
    (hnew : ∀ x ∈ s.indices, B x = none) :
    E.Finds B s ds f (.block ((s.indices.zip ids).map fun (i, id) => .declareInit i .i64 id)) := by
  intro σ th ws Q hσ hB h
  rw [ensures_block, ← List.append_nil (List.map _ _)]
  refine ensures_declareNats hσ hB hids hnew fun th' hσ' hB' ha => ?_
  rw [ensuresAll_nil]
  exact h th' hσ' hB' ha

/-- A thread takes the point at a position, and runs some code if there is one. -/
theorem ensures_visit {flat guard : Exp} {indices : Stmt} (hbase : B.Le (E.scope th)) (hA : A th.arrays ws)
    (hnew : B s.flat = none) (hflat : IsInt B flat f) (hindices : E.Finds B s ds f indices)
    (hguard : ∀ th', (B.sets (s.point ds f)).Le (E.scope th') → B.Le (E.scope th') →
      IsBool (E.scope th') guard (decide (f < ds.prod)))
    (hin : f < ds.prod → ∀ th', (B.sets (s.point ds f)).Le (E.scope th') → A th'.arrays ws → E.Ensures code Q th' ws)
    (hout : ds.prod ≤ f → ∀ th', B.Le (E.scope th') → A th'.arrays ws → Q th' ws) :
    E.EnsuresAll [.declareInit s.flat .i64 flat, indices, .when guard code] Q th ws := by
  rw [ensuresAll_cons, ensuresAll_cons, ensuresAll_singleton]
  refine ensures_declareInit_apart hbase hbase hnew hflat.eval_nat rfl fun th₁ hσ hB ha => ?_
  refine hindices _ _ _ _ hσ hB fun th₂ hσ hB ha' => ?_
  have hA' : A th₂.arrays ws := by rwa [ha', ha]
  exact ensures_when (hguard th₂ hσ hB) (fun h => hin (of_decide_eq_true h) th₂ hσ hA')
    fun h => hout (Nat.le_of_not_lt (of_decide_eq_false h)) th₂ hB hA'

/-- There is a point at a position if the guard of the space says so. -/
theorem isBool_isInside (hrank : ds ≠ []) (hnodup : s.names.Nodup)
    (hextents : List.Forall₂ (IsInt B) s.dimExps (ints ds)) (hpos : ∀ d ∈ ds, 0 < d) (hf : Fits (f : Nat))
    (hσ : (B.sets (s.point ds f)).Le (E.scope th)) (hB : B.Le (E.scope th)) :
    IsBool (E.scope th) s.isInside (decide (f < ds.prod)) := by
  have indices := IterationSpace.isInts_point (σ := B) (List.nodup_cons.mp hnodup).2 hextents hf
  have := IterationSpace.isBool_isInside (hextents.imp fun _ _ hd => hd.mono hB) (indices.imp fun _ _ hi => hi.mono hσ)
  rwa [decide_eq_decide.mpr (inside_coords_iff hrank hpos)] at this

/-- The threads of a group of `G` cover a space: all points at once, if there are no more than threads, or chunk by
    chunk. -/
theorem ensures_coverSpace {t : Nat} (coverage : Coverage) (w : Nat → List Write) (hbase : B.Le (E.scope th))
    (hA : A th.arrays ws) (hB : B.Before n) (ht : t < G) (hlocalId : B launch.localId = some (.i64 (Int64.ofNat t)))
    (hgroupSize : IsInt B launch.groupSize G)
    (hids : coverage = .direct → ∀ ids ∈ launch.pointIds? s.shape, List.Forall₂ (IsInt B) ids (ints (coords ds t)))
    (hcounts : ∀ count ∈ launch.chunkCount? s.shape, IsInt B count (((ds.prod + G - 1) / G : Nat) : Int))
    (hnodup : s.names.Nodup) (hnew : ∀ x ∈ s.names, B x = none) (hold : ∀ x ∈ s.names, ¬New n x)
    (hextents : List.Forall₂ (IsInt B) s.dimExps (ints ds)) (hrank : ds ≠ []) (hpos : ∀ d ∈ ds, 0 < d)
    (hcovers : coverage.Covers ds.prod G E.ctx.loopLimit)
    (hcode : ∀ f < ds.prod, ∀ th ws, (B.sets (s.point ds f)).Le (E.scope th) → A th.arrays ws →
      E.Ensures code (fun th' ws' => B.Le (E.scope th') ∧ A th'.arrays ws' ∧ ws' = ws ++ w f) th ws) :
    E.Ensures (((launch.coverSpace coverage s).run n).1.wrap code)
      (fun th' ws' => B.Le (E.scope th') ∧ A th'.arrays ws' ∧ ws' = ws ++ turns w ds.prod G t) th ws := by
  have htail : ∀ d ∈ ds.tail, 0 < d := fun d hd => hpos d (List.mem_of_mem_tail hd)
  have hprods : Fits ds.prod := hcovers.fits hgroupSize.fits
  have hsize : IsInt B s.size ds.prod := isInt_product (List.forall₂_map_right_iff.mp hextents) hprods
  have hltid : IsInt B launch.ltid t := .var_nat hlocalId (by
    have := hgroupSize.fits
    unfold Fits at *
    omega)
  obtain ⟨hflat, hindices⟩ := List.forall_mem_cons.mp hnew
  have unflattened : E.Finds B s ds t (.unflatten s.extents launch.ltid) :=
    finds_unflatten hextents htail (fits_prod_tail hpos hprods) hindices hltid
  -- Without a loop each thread takes the point of its own number.
  have once : ∀ {indices : Stmt} {guard : Exp}, ds.prod ≤ G → E.Finds B s ds t indices →
      (∀ th', (B.sets (s.point ds t)).Le (E.scope th') → B.Le (E.scope th') →
        IsBool (E.scope th') guard (decide (t < ds.prod))) →
      E.Ensures (.block [.declareInit s.flat .i64 launch.ltid, indices, .when guard code])
        (fun th' ws' => B.Le (E.scope th') ∧ A th'.arrays ws' ∧ ws' = ws ++ turns w ds.prod G t) th ws := by
    intro indices guard hle hfinds hguard
    have hprod : 0 < ds.prod := prod_pos_of_forall hpos
    have hone : (ds.prod + G - 1) / G = 1 := Nat.div_eq_of_lt_le (by omega) (by omega)
    have hturns : turns w ds.prod G t = if t < ds.prod then w t else [] := by
      rw [turns, hone]
      simp
    rw [ensures_block, hturns]
    refine ensures_visit hbase hA hflat hltid hfinds hguard (fun h th' hσ ha => ?_) fun h th' hB ha => ⟨hB, ha, ?_⟩
    · rw [if_pos h]
      exact hcode t h th' ws hσ ha
    · rw [if_neg (Nat.not_lt.mpr h), List.append_nil]
  have full : ds.prod = G → E.Ensures (.block [.declareInit s.flat .i64 launch.ltid, .unflatten s.extents launch.ltid,
      .when (.bool true) code])
        (fun th' ws' => B.Le (E.scope th') ∧ A th'.arrays ws' ∧ ws' = ws ++ turns w ds.prod G t) th ws := by
    intro hprod
    refine once (Nat.le_of_eq hprod) unflattened fun _ _ _ => ?_
    rw [decide_eq_true (hprod ▸ ht)]
    exact IsBool.bool true
  by_cases hsame : s.size = launch.groupSize
  · rw [Launch.coverSpace, if_pos hsame]
    exact full (Int.ofNat_inj.mp ((hsame ▸ hsize : IsInt B launch.groupSize _).unique hgroupSize))
  cases coverage with
  | full =>
    rw [Launch.coverSpace, if_neg hsame]
    exact full hcovers
  | direct =>
    have hguard : ∀ th', (B.sets (s.point ds t)).Le (E.scope th') → B.Le (E.scope th') →
        IsBool (E.scope th') s.isInside (decide (t < ds.prod)) := fun th' hσ hB =>
      isBool_isInside hrank hnodup hextents hpos hltid.fits hσ hB
    rw [Launch.coverSpace, if_neg hsame]
    cases hids' : launch.pointIds? s.shape with
    | none => exact once hcovers unflattened hguard
    | some ids => exact once hcovers (finds_known (hids rfl ids hids') hindices) hguard
  | virtualize =>
  obtain ⟨hfits, hlimit⟩ := hcovers
  have fits : ∀ k : Nat, k ≤ ds.prod + G → Fits (k : Int) := by
    intro k hk
    unfold Fits at *
    omega
  let round := Stmt.block [
    .declareInit (numbered "i" (n + 1)) .i64 (.var (numbered "chunk_i" n) * launch.groupSize + launch.ltid),
    .declareInit s.flat .i64 (.var (numbered "i" (n + 1))), .unflatten s.extents (.var (numbered "i" (n + 1))),
    .when s.isInside code]
  have rounds : ∀ {chunk : Exp} {th : Thread} {ws : List Write}, B.Le (E.scope th) → A th.arrays ws →
      IsInt (E.scope th) chunk (((ds.prod + G - 1) / G : Nat) : Int) →
      E.Ensures (.loop (numbered "chunk_i" n) chunk round)
        (fun th' ws' => B.Le (E.scope th') ∧ A th'.arrays ws' ∧ ws' = ws ++ turns w ds.prod G t) th ws := by
    intro chunk th ws hbase hA hchunk
    obtain ⟨a, ha, hai⟩ := hchunk.evalInt
    have hcount : a.toInt.toNat = (ds.prod + G - 1) / G := by rw [hai, Int.toNat_natCast]
    rw [Ensures]
    refine ⟨a, ha, hcount ▸ hlimit, fun k th' ws' => B.Le (E.scope th') ∧ A th'.arrays ws' ∧ ws' = ws ++
        (List.range k).flatMap (fun c => if c * G + t < ds.prod then w (c * G + t) else []),
      ⟨hbase, hA, by simp⟩, fun k th' ws' hk hI => ?_, fun th' ws' hI => ?_⟩
    swap
    · rwa [hcount] at hI
    obtain ⟨hbase', hA', rfl⟩ := hI
    have hposition : k * G + t < ds.prod + G := Coverage.point_lt (hcount ▸ hk) ht
    have hle : k ≤ k * G := Nat.le_mul_of_pos_right k (Nat.zero_lt_of_lt ht)
    -- The counter is known first, then the position.
    let B₁ := B.set (numbered "chunk_i" n) (.i64 (Int64.ofNat k))
    have hB₁ : B.Le B₁ := Scope.le_set (hB.fresh (by decide) (Nat.le_refl n))
    have before₁ : B₁.Before (n + 1) := hB.set (Nat.le_succ n) (Nat.lt_succ_self n)
    have hchunk : IsInt B₁ (.var (numbered "chunk_i" n)) k := .var_nat Scope.set_self (fits k (by omega))
    have hi : IsInt B₁ (.var (numbered "chunk_i" n) * launch.groupSize + launch.ltid) ((k * G + t : Nat) : Int) := by
      have := (hchunk.mul (hgroupSize.mono hB₁) (by exact_mod_cast fits (k * G) (by omega))).add (hltid.mono hB₁)
        (by exact_mod_cast fits (k * G + t) (by omega))
      exact_mod_cast this
    rw [ensures_block, ensuresAll_cons]
    refine ensures_declareInit_of_known (Thread.set_le_scope_bind hbase') (before₁.fresh (by decide) (Nat.le_refl _))
      hi.eval_nat rfl
      fun th₁ hσ₁ ha₁ => ?_
    let B₂ := B₁.set (numbered "i" (n + 1)) (.i64 (Int64.ofNat (k * G + t)))
    have hB₂ : B.Le B₂ := hB₁.trans (Scope.le_set (before₁.fresh (by decide) (Nat.le_refl _)))
    have names : ∀ x ∈ s.names, B₂ x = none := by
      intro x hx
      have hne : ∀ (stem : String) {j : Nat}, stem ∈ uniformStems ++ ownStems ++ arrayStems ++ kernelStems → n ≤ j →
          numbered stem j ≠ x := fun stem _ hstem hj e => hold x hx (e ▸ new_numbered hstem hj)
      exact (Scope.set_of_ne (hne "i" (by decide) (Nat.le_succ n))).trans
        ((Scope.set_of_ne (hne "chunk_i" (by decide) (Nat.le_refl n))).trans (hnew x hx))
    have position : IsInt B₂ (.var (numbered "i" (n + 1))) ((k * G + t : Nat) : Int) :=
      .var_nat Scope.set_self (fits _ (Nat.le_of_lt hposition))
    have extents : List.Forall₂ (IsInt B₂) s.dimExps (ints ds) := hextents.imp fun _ _ hd => hd.mono hB₂
    refine ensures_visit (A := A) hσ₁ (by rwa [ha₁]) (names _ List.mem_cons_self) position
      (finds_unflatten extents htail (fits_prod_tail hpos hprods)
        (fun x hx => names x (List.mem_cons_of_mem _ hx)) position)
      (fun th₂ hσ₂ hB => isBool_isInside hrank hnodup extents hpos
        (fits _ (Nat.le_of_lt hposition)) hσ₂ hB) (fun hlt th₂ hσ₂ ha₂ => ?_) fun hlt th₂ hB ha₂ => ?_
    · refine (hcode (k * G + t) hlt th₂ _ ((hB₂.sets _).trans hσ₂) ha₂).imp fun th₃ ws₃ h => ⟨h.1, h.2.1, ?_⟩
      rw [h.2.2, List.range_succ, List.flatMap_append, List.flatMap_singleton, if_pos hlt, List.append_assoc]
    · refine ⟨hB₂.trans hB, ha₂, ?_⟩
      rw [List.range_succ, List.flatMap_append, List.flatMap_singleton, if_neg (Nat.not_lt.mpr hlt), List.append_nil]
  rw [Launch.coverSpace_virtualize hsame]
  cases hcount : launch.chunkCount? s.shape with
  | some count =>
    show E.Ensures (.block [.loop (numbered "chunk_i" n) count round]) _ th ws
    rw [ensures_block, ensuresAll_singleton]
    exact rounds hbase hA ((hcounts count hcount).mono hbase)
  | none =>
    have chunks : IsInt B (s.size.divUp launch.groupSize) (((ds.prod + G - 1) / G : Nat) : Int) :=
      hsize.divUp hgroupSize (Nat.zero_lt_of_lt ht) (by exact_mod_cast hfits)
    have hnew' : B (numbered "chunk_iters" (n + 2)) = none := hB.fresh (by decide) (Nat.le_add_right n 2)
    show E.Ensures (.block [.declareInit (numbered "chunk_iters" (n + 2)) .i64 (s.size.divUp launch.groupSize),
      .loop (numbered "chunk_i" n) (.var (numbered "chunk_iters" (n + 2))) round]) _ th ws
    rw [ensures_block, ensuresAll_cons, ensuresAll_singleton]
    refine ensures_declareInit_of_known hbase hnew' chunks.eval_nat rfl fun th₁ hσ₁ ha₁ => ?_
    exact rounds ((Scope.le_set hnew').trans hσ₁) (by rwa [ha₁]) ((IsInt.var_nat Scope.set_self chunks.fits).mono hσ₁)

end Solo

/-! ### The spots of a tile -/

/-- The writes of a tile to the places of its spots that lie inside the destination. -/
def tileWrites (dest : Ident) (es ts : List Nat) (q : Nat) (v : Nat → Value) (r : Nat) : List Write :=
  if Inside (ints es) (ints (spotIndices es ts q r)) then
    [⟨⟨.global, dest, place es (spotIndices es ts q r)⟩, (v r).toBits⟩] else []

/-- The indices of a spot. Those of a tile at the border may be past the end, but 64 bits can hold them. -/
theorem isInts_tileIndices {σ : Scope} {tiles : List (Operand × Operand)} {ts : List Nat}
    (hsizes : List.Forall₂ (fun p (t : Nat) => IsInt σ p.2.toExp t) tiles ts) :
    ∀ {gs xs : List Exp} {es is js : List Nat},
    List.Forall₂ (IsInt σ) gs (ints is) → List.Forall₂ (IsInt σ) xs (ints js) →
      Inside (ints (tileCounts es ts)) (ints is) →
      Inside (ints ts) (ints js) → (∀ p ∈ es.zip ts, Fits ((p.1 + p.2 : Nat) : Int)) →
        List.Forall₂ (IsInt σ) (((gs.zip tiles).zip xs).map fun ((g, _, size), i) => g * size.toExp + i)
          (ints (tileIndices ts is js)) := by
  induction hsizes with
  | nil =>
    intros
    simp [tileIndices]
  | @cons p t tiles ts ht _ ih =>
    intro gs xs es is js hg hx hi hj hfits
    cases js with
    | nil => exact absurd (List.Forall₂.length_eq hj) (by simp [ints])
    | cons j js =>
    cases es with
    | nil =>
      cases is with
      | nil => simp [List.forall₂_nil_right_iff.mp hg, tileIndices]
      | cons i is => exact absurd (List.Forall₂.length_eq hi) (by simp [ints, tileCounts])
    | cons e es =>
    cases is with
    | nil => exact absurd (List.Forall₂.length_eq hi) (by simp [ints, tileCounts])
    | cons i is =>
      obtain ⟨g, gs, hgi, hgs, rfl⟩ := List.forall₂_cons_right_iff.mp hg
      obtain ⟨x, xs, hxj, hxs, rfl⟩ := List.forall₂_cons_right_iff.mp hx
      obtain ⟨hi, his⟩ := inside_ints_cons.mp hi
      obtain ⟨hj, hjs⟩ := inside_ints_cons.mp hj
      obtain ⟨hfit, hfits⟩ := List.forall_mem_cons.mp hfits
      -- A tile starts inside the array, so none of its spots is further out than its own length.
      have hlast : (i + 1) * t ≤ e + t - 1 := (Nat.le_div_iff_mul_le (Nat.zero_lt_of_lt hj)).mp hi
      rw [Nat.succ_mul] at hlast
      have fits : ∀ k : Nat, k ≤ e + t → Fits (k : Int) := by
        intro k hk
        unfold Fits at *
        omega
      refine .cons ?_ (ih hgs hxs his hjs hfits)
      have := (hgi.mul ht (by exact_mod_cast fits (i * t) (by omega))).add hxj
        (by exact_mod_cast fits (i * t + j) (by omega))
      exact_mod_cast this

/-- What a thread needs for its part in a tile: its place in the group, the sizes of the tile and of the destination,
    the indices of the tile, and 64 bits that can hold all this. -/
structure Launch.Tiles (launch : Launch) (B : Scope) (limit : Nat) (indices : List Exp)
    (tiles : List (Operand × Operand)) (es ts : List Nat) (G q t : Nat) : Prop where
  place : t < G
  localId : B launch.localId = some (.i64 (Int64.ofNat t))
  groupSize : IsInt B launch.groupSize G
  counts : ∀ count ∈ launch.chunkCount? (tiles.map (·.2)), IsInt B count (((ts.prod + G - 1) / G : Nat) : Int)
  extents : List.Forall₂ (fun p (e : Nat) => IsInt B p.1.toExp e) tiles es
  sizes : List.Forall₂ (fun p (e : Nat) => IsInt B p.2.toExp e) tiles ts
  rank : ts ≠ []
  positive : ∀ t ∈ ts, 0 < t
  tile : q < (tileCounts es ts).prod
  indices : List.Forall₂ (IsInt B) indices (ints (coords (tileCounts es ts) q))
  fits : SegKernel.Fits ((ts.prod + G : Nat) : Int) ∧ SegKernel.Fits (es.prod : Nat) ∧
    ∀ p ∈ es.zip ts, SegKernel.Fits ((p.1 + p.2 : Nat) : Int)
  limit : (ts.prod + G - 1) / G ≤ limit

theorem Launch.Tiles.mono {launch : Launch} {B B' : Scope} {limit : Nat} {indices : List Exp}
    {tiles : List (Operand × Operand)} {es ts : List Nat} {G q t : Nat}
    (h : launch.Tiles B limit indices tiles es ts G q t) (hB : B.Le B') :
    launch.Tiles B' limit indices tiles es ts G q t :=
  { h with
    localId := hB _ _ h.localId
    groupSize := h.groupSize.mono hB
    counts := fun count hcount => (h.counts count hcount).mono hB
    extents := h.extents.imp fun _ _ he => he.mono hB
    sizes := h.sizes.imp fun _ _ hs => hs.mono hB
    indices := h.indices.imp fun _ _ hi => hi.mono hB }

namespace Solo
variable {E : Solo} {B : Scope} {Q : Claim} {th : Thread} {ws : List Write} {scope : BodyScope} {setting : Setting}
  {s s' : Session} {env : HostEnv} {launch : Launch} {indices : List Exp} {source : ArrayInfo} {dest array : Ident}
  {type : ScalarType} {shape : List Operand} {tiles : List (Operand × Operand)} {code : Stmt} {es ts : List Nat}
  {G q t : Nat} {v : Nat → Value}

/-- A thread writes the spots of the tile of which it has the turn. The space of the spots has new names. -/
theorem ensures_tileSpots {n m : Nat} {ids : List Ident} {space : IterationSpace} {dest : Ident} {type : ScalarType}
    {shape : List Exp} (h : launch.Tiles B E.ctx.loopLimit indices tiles es ts G q t)
    (hids : Registers n m tiles.length ids) (hm : n ≤ m)
    (hspace : space = ⟨numbered "tile_flat" m, (ids.zip tiles).map fun (i, _, size) => (i, size)⟩)
    (hbase : B.Le (E.scope th)) (hB : B.Before n)
    (htypes : ∀ r < ts.prod, (v r).type = source.view.type ∧ (v r).type = type)
    (hload : ∀ r < ts.prod, ∀ a th' ws, a.toInt = (r : Int) → th'.arrays = th.arrays →
      (∀ w ∈ ws, w.slot.space = .global ∧ w.slot.array = dest) → E.Loads source.view a (v r) th' ws)
    (hreaches : ∀ x < es.prod, E.store.Reaches ⟨dest, type, .global, false⟩ x)
    (hown : ∀ x < es.prod, E.own E.id ⟨.global, dest, x⟩) :
    E.Ensures (((launch.coverSpace .virtualize space).run (m + 2)).1.wrap <|
        .when (indicesInBounds (tiles.map fun (extent, _) => extent.toExp)
          (((indices.zip tiles).zip space.indexExps).map fun ((g, _, size), i) => g * size.toExp + i)) <|
        source.moveElement ⟨⟨dest, type, .global, false⟩, shape⟩ (numbered "elem" (m + 1))
          (.var (numbered "tile_flat" m))
          (.flatten (tiles.map fun (extent, _) => extent.toExp)
            (((indices.zip tiles).zip space.indexExps).map fun ((g, _, size), i) => g * size.toExp + i)))
      (fun th' ws => B.Le (E.scope th') ∧ th'.arrays = th.arrays ∧ ws = turns (tileWrites dest es ts q v) ts.prod G t)
        th [] := by
  -- The space of the spots has the identifiers of the tile for indices, and its lengths for extents.
  have hzip : (ids.zip tiles).map (·.1) = ids := List.map_fst_zip (Nat.le_of_eq hids.length)
  have hzip' : (ids.zip tiles).map (·.2) = tiles := List.map_snd_zip (Nat.le_of_eq hids.length.symm)
  have flat : space.flat = numbered "tile_flat" m := by rw [hspace]
  have spaceIndices : space.indices = ids := by
    rw [hspace, IterationSpace.indices, List.map_map]
    exact hzip
  have spaceShape : space.shape = tiles.map (·.2) := by
    rw [hspace, IterationSpace.shape, List.map_map]
    conv_rhs => rw [← hzip', List.map_map]
    rfl
  have spaceDims : space.dimExps = tiles.map (·.2.toExp) := by
    have := congrArg (List.map Operand.toExp) spaceShape
    rw [IterationSpace.shape, List.map_map, List.map_map] at this
    exact this
  have indexExps : space.indexExps = ids.map .var := by
    rw [← spaceIndices, IterationSpace.indexExps, IterationSpace.indices, List.map_map]
    rfl
  have names : ∀ x ∈ space.names, Taken n (m + 1) x := by
    intro x hx
    rw [IterationSpace.names, flat, spaceIndices, List.mem_cons] at hx
    rcases hx with rfl | hx
    · exact ⟨"tile_flat", by decide, m, hm, Nat.lt_succ_self m, rfl⟩
    · exact (hids.taken x hx).mono (Nat.le_refl n) (Nat.le_succ m)
  have unknown : ∀ x ∈ space.names, B x = none := fun x hx => hB x (names x hx).new
  have hnodup : space.names.Nodup := by
    rw [IterationSpace.names, flat, spaceIndices, List.nodup_cons]
    exact ⟨fun hx => (hids.taken _ hx).ne_numbered (Nat.le_refl m) rfl, hids.nodup⟩
  have hrank : es.length = ts.length := h.extents.length_eq.symm.trans h.sizes.length_eq
  obtain ⟨hfits, hfitsDest, hfitsIndices⟩ := h.fits
  have fits : ∀ k : Nat, k < ts.prod → Fits (k : Int) := by
    intro k hk
    unfold Fits at *
    omega
  have hsizes : List.Forall₂ (IsInt B) space.dimExps (ints ts) := by
    rw [spaceDims, ints, List.forall₂_map_left_iff, List.forall₂_map_right_iff]
    exact h.sizes
  have hextents : List.Forall₂ (IsInt B) (tiles.map fun (extent, _) => extent.toExp) (ints es) := by
    rw [ints, List.forall₂_map_left_iff, List.forall₂_map_right_iff]
    exact h.extents
  refine (ensures_coverSpace (A := fun arrays ws => arrays = th.arrays ∧ ∀ w ∈ ws, w.slot.space = .global ∧
    w.slot.array = dest)
    .virtualize (tileWrites dest es ts q v) hbase ⟨rfl, List.forall_mem_nil _⟩ (hB.mono (Nat.le_add_right_of_le hm))
      h.place h.localId
    h.groupSize (fun h => absurd h (by decide)) (spaceShape ▸ h.counts) hnodup unknown (fun x hx hnew => ?_)
      hsizes h.rank h.positive ⟨hfits, h.limit⟩
    fun r hr th' ws hσ hA => ?_).imp fun th' ws hQ => ⟨hQ.1, hQ.2.1.1, by simpa using hQ.2.2⟩
  · obtain ⟨stem, -, k, -, hk, rfl⟩ := names x hx
    exact hnew.ne_numbered (Nat.lt_succ_of_lt hk) rfl
  have harrays := hA.1
  have hws := hA.2
  have point : ∀ e ∈ space.point ts r, e.1 ∈ space.names := by
    intro e he
    rcases List.mem_cons.mp he with rfl | he
    · exact List.mem_cons_self
    · exact List.mem_cons_of_mem _ (List.of_mem_zip he).1
  have grows : B.Le (B.sets (space.point ts r)) := (Scope.Le.refl B).sets_right fun e he => unknown _ (point e he)
  have spot : List.Forall₂ (IsInt (B.sets (space.point ts r))) space.indexExps (ints (coords ts r)) :=
    IterationSpace.isInts_point (List.nodup_cons.mp hnodup).2 hsizes (fits r hr)
  have position := isInts_tileIndices (h.sizes.imp fun _ _ hs => hs.mono grows)
    (h.indices.imp fun _ _ hi => hi.mono grows) spot
    (inside_coords h.tile) (inside_coords hr) hfitsIndices
  have hdest := hextents.imp fun _ _ he => he.mono grows
  have hlength : (ints es).length = (ints (spotIndices es ts q r)).length := by
    rw [List.length_map, List.length_map, length_spotIndices hrank, hrank]
  change List.Forall₂ _ _ (ints (spotIndices es ts q r)) at position
  refine ensures_when (isBool_indicesInBounds (hdest.imp fun _ _ he => he.mono hσ)
    (position.imp fun _ _ hi => hi.mono hσ) hlength)
    (fun hin => ?_) fun hout => ?_
  · have hin := of_decide_eq_true hin
    have hplace := place_lt hin
    have flatten : IsInt (B.sets (space.point ts r)) _ ((place es (spotIndices es ts q r) : Nat) : Int) :=
      place_cast hin ▸ isInt_flatten hdest position hin (prod_ints es ▸ hfitsDest)
    have hk : E.Knows (B.sets (space.point ts r)) ⟨fun _ => none, fun _ => none⟩ th' :=
      ⟨hσ, fun _ _ hx => (Option.some_ne_none _ hx.symm).elim, fun _ _ _ hx => (Option.some_ne_none _ hx.symm).elim⟩
    have hspot : B.sets (space.point ts r) (numbered "tile_flat" m) = some (.i64 (Int64.ofNat r)) := by
      have apart : ∀ e ∈ space.indices.zip (indexValues (coords ts r)), e.1 ≠ space.flat := fun e he hflat =>
        (List.nodup_cons.mp hnodup).1 (hflat ▸ (List.of_mem_zip he).1)
      exact flat ▸ (Scope.sets_of_not_mem apart).trans Scope.set_self
    refine ensures_moveElement hk ?_ rfl (.var_nat hspot (fits r hr)) (fun th'' hk'' => flatten.mono hk''.base)
      (fun a th'' ha harrays' => hload r hr a th'' ws ha (harrays'.trans harrays) hws) (htypes r hr).1 (htypes r hr).2
      (hreaches _ hplace) (hown _ hplace) fun th'' hk'' harrays' =>
        ⟨grows.trans hk''.base, ⟨harrays'.trans harrays, ?_⟩, ?_⟩
    · refine (Scope.sets_of_not_mem fun e he hname => ?_).trans (hB.fresh (by decide) (Nat.le_succ_of_le hm))
      exact (names _ (point e he)).ne_numbered (Nat.le_refl _) hname.symm
    · exact List.forall_mem_append.mpr ⟨hws, List.forall_mem_singleton.mpr ⟨rfl, rfl⟩⟩
    · rw [tileWrites, if_pos hin]
  · rw [tileWrites, if_neg (of_decide_eq_false hout), List.append_nil]
    exact ⟨grows.trans hσ, hA, rfl⟩

/-- The code that writes the tile of a group does so for each thread. -/
theorem ensures_assembleTile {dest array : Ident} {type : ScalarType} {shape : List Exp}
    (hcode : scope.assembleTile indices ⟨⟨dest, type, .global, false⟩, shape⟩ tiles array setting s = .ok (code, s'))
    (henv : setting.env = env) (hsource : scope.Finds env array source)
    (h : scope.launch.Tiles B E.ctx.loopLimit indices tiles es ts G q t)
    (hbase : B.Le (E.scope th)) (hB : B.Before s.names)
    (htypes : ∀ r < ts.prod, (v r).type = source.view.type ∧ (v r).type = type)
    (hload : ∀ r < ts.prod, ∀ a th' ws, a.toInt = (r : Int) → th'.arrays = th.arrays →
      (∀ w ∈ ws, w.slot.space = .global ∧ w.slot.array = dest) → E.Loads source.view a (v r) th' ws)
    (hreaches : ∀ x < es.prod, E.store.Reaches ⟨dest, type, .global, false⟩ x)
    (hown : ∀ x < es.prod, E.own E.id ⟨.global, dest, x⟩) :
    E.Ensures code (fun th' ws => B.Le (E.scope th') ∧ th'.arrays = th.arrays ∧
      ws = turns (tileWrites dest es ts q v) ts.prod G t) th [] := by
  simp only [BodyScope.assembleTile, Lowering.bind_eq_ok, Lowering.check_eq_ok, Lowering.lift_eq_ok,
    Lowering.pure_eq_ok] at hcode
  obtain ⟨_, _, ⟨-, hs⟩, found, s₀, hfound, ids, s₁, ⟨hids, rfl⟩, flat, s₂, ⟨hflat, rfl⟩, x, s₃, ⟨hx, rfl⟩, nest, s₄,
    ⟨hnest, -⟩,
    rfl, -⟩ := hcode
  obtain ⟨rfl, rfl⟩ := array_eq_ok_of_finds henv hsource hfound
  subst hs
  obtain ⟨hm, hregisters⟩ : Fresh.At s₀.names (freshFor "tile_i" tiles) fun m names =>
    Registers s₀.names m tiles.length names :=
    Fresh.At.registers (by decide) tiles
  rw [← hids] at hregisters
  subst hflat hx hnest
  exact ensures_tileSpots h hregisters hm rfl hbase hB htypes hload hreaches hown

end Solo

/-- A nest for the points of a space shares no array. -/
theorem Launch.private_coverSpace (launch : Launch) (coverage : Coverage) (s : IterationSpace) (n : Nat) {body : Stmt}
    (hbody : body.Private fun _ => False) :
    (((launch.coverSpace coverage s).run n).1.wrap body).Private fun _ => False := by
  have unflatten : ∀ {flat : Exp}, (Stmt.unflatten s.extents flat).Private fun _ => False :=
    .unflatten fun _ _ => id
  have point : ∀ {flat : Exp} {indices : Stmt}, indices.Private (fun _ => False) →
      ∀ stmt ∈ [.declareInit s.flat .i64 flat, indices], stmt.Private fun _ => False := fun hindices =>
    List.forall_mem_cons.mpr ⟨.declareInit id, List.forall_mem_singleton.mpr hindices⟩
  have full : (Nest.wrap { before := [.declareInit s.flat .i64 launch.ltid, .unflatten s.extents launch.ltid] }
      body).Private fun _ => False :=
    .wrap (List.forall_mem_nil _) (fun _ _ h => by cases h) (point unflatten) (List.forall_mem_nil _) hbody
  by_cases hsame : s.size = launch.groupSize
  · rw [Launch.coverSpace, if_pos hsame]
    exact full
  cases coverage with
  | full =>
    rw [Launch.coverSpace, if_neg hsame]
    exact full
  | direct =>
    rw [Launch.coverSpace, if_neg hsame]
    refine .wrap (List.forall_mem_nil _) (fun _ _ h => by cases h) (point ?_) (List.forall_mem_nil _) hbody
    split
    · exact .block (List.forall_mem_map.mpr fun _ _ => .declareInit id)
    · exact unflatten
  | virtualize =>
    have before : ∀ {i : Ident} {x flat : Exp}, ∀ stmt ∈ [Stmt.declareInit i .i64 x, .declareInit s.flat .i64 flat,
        .unflatten s.extents flat], stmt.Private fun _ => False :=
      List.forall_mem_cons.mpr ⟨.declareInit id, point unflatten⟩
    rw [Launch.coverSpace_virtualize hsame]
    split
    · exact .wrap (List.forall_mem_nil _) (fun _ _ _ => id) before (List.forall_mem_nil _) hbody
    · exact .wrap (List.forall_mem_singleton.mpr (.declareInit id)) (fun _ _ _ => id) before (List.forall_mem_nil _)
        hbody

/-- The code that writes a tile shares no array. -/
theorem BodyScope.sharedArrays_assembleTile {scope : BodyScope} {setting : Setting} {s s' : Session}
    {indices : List Exp} {dest : ArrayInfo} {tiles : List (Operand × Operand)} {array : Ident} {code : Stmt}
    (hcode : scope.assembleTile indices dest tiles array setting s = .ok (code, s')) : code.sharedArrays = [] := by
  simp only [BodyScope.assembleTile, Lowering.bind_eq_ok, Lowering.check_eq_ok, Lowering.lift_eq_ok,
    Lowering.pure_eq_ok] at hcode
  obtain ⟨_, _, -, source, _, -, ids, _, -, flat, _, -, x, _, -, nest, _, ⟨rfl, -⟩, rfl, -⟩ := hcode
  exact (Launch.private_coverSpace _ _ _ _ (.when (Lowering.private_moveElement id))).shared

/-! ### The tile of a group -/

/-- What is known of names that are not new when `n` names were taken. -/
noncomputable def Scope.old (n : Nat) (σ : Scope) : Scope := fun x =>
  open Classical in if New n x then none else σ x

namespace Scope
variable {σ τ : Scope} {n : Nat}

theorem old_le (n : Nat) (σ : Scope) : (σ.old n).Le σ := by
  intro x v hx
  unfold old at hx
  split at hx
  · cases hx
  · exact hx

theorem before_old (n : Nat) (σ : Scope) : (σ.old n).Before n := fun _ hx => if_pos hx

theorem old_mono {m : Nat} (hn : n ≤ m) (σ : Scope) : (σ.old n).Le (σ.old m) := fun x v hx => by
  have hnew : ¬New n x := fun hnew => by
    rw [before_old n σ x hnew] at hx
    cases hx
  exact (if_neg fun hnew' => hnew (hnew'.mono hn)).trans (old_le n σ x v hx)

/-- What is known of no new name is old. -/
theorem Le.old (h : σ.Le τ) (hσ : σ.Before n) : σ.Le (τ.old n) := by
  intro x v hx
  have hnew : ¬New n x := fun hnew => by
    rw [hσ x hnew] at hx
    cases hx
  exact (if_neg hnew).trans (h x v hx)

end Scope

/-- What a thread sees of a tile: values at the first places of an array, of its own or in the memory that threads
    share. -/
def View.Shows (view : View) (n : Nat) (v : Nat → Value) (m : Store) (th : Thread) : Prop :=
  match view.space with
  | .thread =>
    ∃ b, th.arrays[view.array]? = some b ∧ ∀ r < n, ∀ a : Int64, a.toInt = (r : Int) → b.load view a = .ok (v r)
  | _ => ∀ r < n, m.Holds view r (v r)

theorem Buffer.type_of_load {b : Buffer} {view : View} {a : Int64} {v : Value} (h : b.load view a = .ok v) :
    v.type = view.type := by
  unfold Buffer.load at h
  cases hposition : b.position view a with
  | error fault =>
    rw [hposition] at h
    cases h
  | ok i =>
    rw [hposition] at h
    cases h
    exact Value.type_ofBits _ _

namespace View.Shows
variable {view : View} {n r : Nat} {v : Nat → Value} {m : Store} {th : Thread}

theorem type (h : view.Shows n v m th) (hfits : Fits (n : Int)) (hr : r < n) : (v r).type = view.type := by
  unfold Shows at h
  cases hspace : view.space <;> rw [hspace] at h
  case thread =>
    obtain ⟨b, -, hload⟩ := h
    refine Buffer.type_of_load (hload r hr (Int64.ofNat r) (toInt_ofNat_of_fits ?_))
    unfold Fits at *
    omega
  all_goals exact (h r hr).type

/-- The thread can load the values, also after some writes to another array that it alone may read then. -/
theorem loads (h : view.Shows n v m th) {E : Solo} (hstore : E.store = m) {dest : Ident}
    (hown : ∀ t p, E.own t p → p.space = .global ∧ p.array = dest)
    (hapart : ¬(view.space = .global ∧ view.array = dest)) (hr : r < n) {a : Int64} (ha : a.toInt = (r : Int))
    {th' : Thread} (harrays : th'.arrays = th.arrays) {ws : List Write}
    (hws : ∀ w ∈ ws, w.slot.space = .global ∧ w.slot.array = dest) : E.Loads view a (v r) th' ws := by
  have memory : (∀ r < n, m.Holds view r (v r)) →
      E.Keeps ⟨view.space, view.array, a.toInt.toNat⟩ ∧ (E.store.puts ws).load view a = .ok (v r) := fun h =>
    ⟨fun t _ hmine => hapart (hown t _ hmine), (hstore ▸ (h r hr).puts_of_forall_ne fun w hw hslot => hapart (by
      have := hws w hw
      rwa [hslot] at this)).load ha⟩
  unfold Shows at h
  unfold Solo.Loads
  cases hspace : view.space <;> rw [hspace] at h memory
  case thread =>
    obtain ⟨b, hb, hload⟩ := h
    exact ⟨b, harrays ▸ hb, hload r hr a ha⟩
  all_goals exact memory h

end View.Shows

/-- The threads of a group write its tile, each spot that lies inside the destination once. -/
theorem Team.leads_assembleTile {G : Team} {scope : BodyScope} {setting : Setting} {s s' : Session} {env : HostEnv}
    {indices : List Exp} {source : ArrayInfo} {dest array : Ident} {type : ScalarType} {shape : List Exp}
    {tiles : List (Operand × Operand)} {code : Stmt} {es ts : List Nat} {q : Nat} {v : Nat → Value} {m : Store}
    {left : Nat → Thread → Prop} (hunchecked : G.ctx.checkRaces = false)
    (hcode : scope.assembleTile indices ⟨⟨dest, type, .global, false⟩, shape⟩ tiles array setting s = .ok (code, s'))
    (henv : setting.env = env) (hsource : scope.Finds env array source) (htype : source.view.type = type)
    (hapart : ¬(source.view.space = .global ∧ source.view.array = dest))
    (hknown : ∀ t < G.size, ∀ th, left t th →
      scope.launch.Tiles (Scope.old s.names (th.scope G.ctx.captured)) G.ctx.loopLimit
      indices tiles es ts G.size q t)
    (hleft : ∀ t < G.size, ∀ th th', left t th → th'.arrays = th.arrays →
      (Scope.old s.names (th.scope G.ctx.captured)).Le (th'.scope G.ctx.captured) → left t th')
    (hshows : ∀ t < G.size, ∀ th, left t th → source.view.Shows ts.prod v m th)
    (hreaches : ∀ x < es.prod, m.Reaches ⟨dest, type, .global, false⟩ x) :
    G.Leads left m code left fun out => out.Perm ((List.range ts.prod).flatMap (tileWrites dest es ts q v)) := by
  let own : Nat → Slot → Prop := fun _ p => p.space = .global ∧ p.array = dest
  refine Leads.phase own (fun hchecked => absurd (hunchecked.symm.trans hchecked) (by decide))
    (fun t th out => left t th ∧ out = turns (tileWrites dest es ts q v) ts.prod G.size t) (fun t ht th hth => ?_)
    (fun t _ th out hQ => hQ.1) fun writes hwrites hQ => ?_
  · have htiles := hknown t ht th hth
    have hfits : Fits ((ts.prod : Nat) : Int) := by
      have := htiles.fits.1
      unfold Fits at *
      omega
    refine (Solo.ensures_assembleTile (E := ⟨G.ctx, m, own, t⟩) hcode henv hsource htiles (Scope.old_le _ _)
      (Scope.before_old _ _)
      (fun r hr => ?_) (fun r hr a th' out ha harrays hout => ?_) hreaches fun x _ => ⟨rfl, rfl⟩).imp
        fun th' out h => ⟨hleft t ht th th' hth h.2.1 h.1, h.2.2⟩
    · have := (hshows t ht th hth).type hfits hr
      exact ⟨this, this.trans htype⟩
    · exact (hshows t ht th hth).loads rfl (fun _ _ => id) hapart hr ha harrays hout
  · refine (perm_writesOf fun e he => (hwrites e he).1).trans
      (List.Perm.trans (List.Perm.of_eq ?_) (turns_perm _ _ G.pos))
    refine List.flatMap_congr fun t ht => ?_
    obtain ⟨th, -, hout⟩ := hQ t (List.mem_range.mp ht)
    exact hout

end SegKernel
