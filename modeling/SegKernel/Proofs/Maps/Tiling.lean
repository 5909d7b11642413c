import SegKernel.Proofs.Coverage.Groups
import SegKernel.Proofs.Introductions.Nested
import SegKernel.Proofs.Maps.Assembling
import SegKernel.Proofs.Maps.Empty
import SegKernel.Proofs.Races.Verdicts

/-! Maps by groups that assemble a destination from tiles. Each group visits the tiles of which it has the turn. At a
    visit the body makes the elements of the tile, and then the group writes those that lie inside the destination. In
    the end each element of the destination has been written once, with the element of its tile. -/

namespace SegKernel
open Exp Lowering

/-! ### Visits of groups -/

namespace Team
variable {op : SegOp} {H : Surroundings} {G : Team} {ds : List Nat} {g n P q : Nat} {m : Store} {code : Stmt}
  {launch : Launch} {σ : Nat → Scope} {R : List Write → Prop}

/-- What the threads of a group know at a point. -/
def arrived (σ : Nat → Scope) (s : IterationSpace) (ds : List Nat) (q t : Nat) : Scope := (σ t).sets (s.point ds q)

theorem le_arrived (h : ∀ x ∈ op.space.names, ∀ t < G.size, σ t x = none) {t : Nat} (ht : t < G.size) :
    (σ t).Le (arrived σ op.space ds q t) := by
  exact (Scope.Le.refl _).sets_right fun e he => h e.1 (IterationSpace.name_of_mem_point he) t ht

/-- The names of a point are no new names. -/
theorem before_arrived (hop : op.WellNamed H.env) {t : Nat} (hσ : (σ t).Before n) :
    (arrived σ op.space ds q t).Before n := by
  intro x hx
  refine (Scope.sets_of_not_mem fun e he hname => ?_).trans (hσ x hx)
  exact hop.names x (List.mem_append_left _ (hname ▸ IterationSpace.name_of_mem_point he)) hx.generated

/-- A group takes the point at a position, and runs some code if there is one. -/
theorem leads_atPoint (hop : op.WellNamed H.env) (hσ : ∀ t < G.size, op.Around H n (σ t))
    (hextents : List.Forall₂ (IsInt H.scope) op.space.dimExps (ints ds)) (hpos : ∀ d ∈ ds, 0 < d)
    (hfits : Fits (ds.prod : Nat)) (coverage : Coverage) {position : Exp}
    (hposition : ∀ t < G.size, IsInt (σ t) position q) (hfull : coverage = .full → q < ds.prod)
    (hin : q < ds.prod → G.Leads (G.Knowing (arrived σ op.space ds q)) m code (G.Knowing σ) R)
    (hout : ds.prod ≤ q → R []) :
    G.LeadsAll (G.Knowing σ) m [.declareInit op.space.flat .i64 position,
      .unflatten op.space.extents (.var op.space.flat),
      .when (if coverage = .full then .bool true else (Exp.var op.space.flat).lt op.space.size) code]
        (G.Knowing σ) R := by
  have hnew : ∀ x ∈ op.space.names, ∀ t < G.size, σ t x = none := fun x hx t ht =>
    (hσ t ht).new hop x (List.mem_append_left _ hx)
  have names : op.space.extents.map (·.1) = op.space.indices := by simp [IterationSpace.extents, IterationSpace.indices]
  have flat : ∀ t < G.size, IsInt ((σ t).set op.space.flat (.i64 (Int64.ofNat q))) (.var op.space.flat) q := fun t ht =>
    .var_nat Scope.set_self (hposition t ht).fits
  have grows : ∀ t < G.size, (σ t).Le ((σ t).set op.space.flat (.i64 (Int64.ofNat q))) := fun t ht =>
    Scope.le_set (hnew _ List.mem_cons_self t ht)
  have host : ∀ t < G.size, H.scope.Le (arrived σ op.space ds q t) :=
    fun t ht => (hσ t ht).host.trans (le_arrived hnew ht)
  have indices : G.Leads (G.Knowing fun t => (σ t).set op.space.flat (.i64 (Int64.ofNat q))) m
      (.unflatten op.space.extents (.var op.space.flat)) (G.Knowing (arrived σ op.space ds q)) (· = []) := by
    refine .silent fun t ht th hth => ?_
    have extents : List.Forall₂ (fun d (e : Nat) => IsInt ((σ t).set op.space.flat (.i64 (Int64.ofNat q))) d.2 e)
        op.space.extents ds := by
      have := List.forall₂_map_right_iff.mp (List.forall₂_map_left_iff.mp hextents)
      exact List.forall₂_map_left_iff.mpr (this.imp fun d e hd => hd.mono ((hσ t ht).host.trans (grows t ht)))
    have unknown : ∀ d ∈ op.space.extents, (σ t).set op.space.flat (.i64 (Int64.ofNat q)) d.1 = none := by
      intro d hd
      have hi : d.1 ∈ op.space.indices := names ▸ List.mem_map_of_mem hd
      have apart : op.space.flat ≠ d.1 := fun e => (List.nodup_cons.mp hop.nodup).1 (e ▸ hi)
      rw [Scope.set_of_ne apart, hnew _ (List.mem_cons_of_mem _ hi) t ht]
    refine Solo.ensures_unflatten hth hth (flat t ht) extents (fun d hd => hpos d (List.mem_of_mem_tail hd))
      (fits_prod_tail hpos hfits)
      unknown fun th' hth' _ _ => ⟨?_, rfl⟩
    rwa [names] at hth'
  -- A space that is covered in full has no point past its end, and no guard.
  have guard : ∀ t < G.size, ∀ th, G.Knowing (arrived σ op.space ds q) t th → IsBool (th.scope G.ctx.captured)
      (if coverage = .full then .bool true else (Exp.var op.space.flat).lt op.space.size) (decide (q < ds.prod)) := by
    intro t ht th hth
    by_cases hc : coverage = .full
    · rw [if_pos hc, decide_eq_true (hfull hc)]
      exact IsBool.bool true
    · have apart : ∀ e ∈ op.space.indices.zip (indexValues (coords ds q)), e.1 ≠ op.space.flat := fun e he hflat =>
        (List.nodup_cons.mp hop.nodup).1 (hflat ▸ (List.of_mem_zip he).1)
      have known : arrived σ op.space ds q t op.space.flat = some (.i64 (Int64.ofNat q)) :=
        (Scope.sets_of_not_mem apart).trans Scope.set_self
      have hsize : IsInt H.scope op.space.size ds.prod := isInt_product (List.forall₂_map_right_iff.mp hextents) hfits
      rw [if_neg hc]
      have := IsBool.lt (.var_nat (hth _ _ known) (hposition t ht).fits) (hsize.mono ((host t ht).trans hth))
      rwa [decide_eq_decide.mpr Int.ofNat_lt] at this
  refine .after_silent (.declareInit (hnew _ List.mem_cons_self) (fun t ht => (hposition t ht).eval_nat) fun _ _ => rfl)
    (.after_silent indices (leadsAll_singleton.mpr
      (.when guard (fun h => hin (of_decide_eq_true h)) fun h => ⟨?_, ?_⟩)))
  · exact fun t ht th hth => (le_arrived hnew ht).trans hth
  · exact hout (Nat.le_of_not_lt (of_decide_eq_false h))

section Visits
variable (hop : op.WellNamed H.env) (hgroup : G.ctx.group = Int64.ofNat g) (hσ : G.Oriented op H launch g n σ)
  (hforesees : G.Foresees H launch σ) (hnumGroups : IsInt H.scope launch.numGroups P)
  (hextents : List.Forall₂ (IsInt H.scope) op.space.dimExps (ints ds)) (hpos : ∀ d ∈ ds, 0 < d) (hg : g < P)
  (Q : Nat → List Write → Prop) (hQ : Q 0 [])
include hop hgroup hσ hforesees hnumGroups hextents hpos hg hQ

/-- The group goes through the points of which it has the turn in a loop. -/
theorem leads_pointLoop (coverage : Coverage) (hbounded : Coverage.Bounded ds.prod P 1 G.ctx.loopLimit)
    (hvisit : ∀ τ, (∀ t < G.size, (σ t).Le (τ t)) → G.Oriented op H launch g (n + 4) τ → G.Foresees H launch τ →
      ∀ k out, Q k out → g + k * P < ds.prod → G.Leads (G.Knowing (arrived τ op.space ds (g + k * P))) (m.puts out) code
        (G.Knowing τ) fun out' => Q (k + 1) (out ++ out')) :
    G.Leads (G.Knowing σ) m (.block [Launch.ask .groupId (numbered "phys_group_id" n),
      .declareInit (numbered "iterations" (n + 1)) .i64
        ((op.space.size - .var (numbered "phys_group_id" n)).divUp launch.numGroups),
      .loop (numbered "i" (n + 2)) (.var (numbered "iterations" (n + 1)))
        (.block [.declareInit (numbered "virt_group_id" (n + 3)) .i64
        (.var (numbered "phys_group_id" n) + .var (numbered "i" (n + 2)) * launch.numGroups),
        .declareInit op.space.flat .i64 (.var (numbered "virt_group_id" (n + 3))),
          .unflatten op.space.extents (.var op.space.flat),
        .when (if coverage = .full then .bool true else (Exp.var op.space.flat).lt op.space.size) code,
          .barrier .global])])
      (G.Knowing σ) (Q ((ds.prod - g + P - 1) / P)) := by
  have hrounds := hbounded.rounds
  have hgroups := hbounded.groups
  rw [Nat.add_sub_cancel, Nat.div_one] at hrounds hgroups
  have hfits : Fits (ds.prod : Nat) := by
    unfold Fits at *
    omega
  have turns := leads_turns (m := m) hop hgroup hσ (isInt_product (List.forall₂_map_right_iff.mp hextents) hfits)
    hnumGroups hg hgroups
    (Nat.le_trans (Nat.div_le_div_right (by omega)) hrounds)
      [.declareInit op.space.flat .i64 (.var (numbered "virt_group_id" (n + 3))),
      .unflatten op.space.extents (.var op.space.flat),
      .when (if coverage = .full then .bool true else (Exp.var op.space.flat).lt op.space.size) code] Q hQ
  exact turns fun τ hle hτ k out hout hq hlogical =>
    leads_atPoint hop hτ.around hextents hpos hfits coverage hlogical (fun _ => hq)
    (fun _ => hvisit τ hle hτ (hforesees.mono hle) k out hout hq) fun h => absurd hq (Nat.not_lt.mpr h)

/-- A group that has found its place visits the points of which it has the turn, and no others. Each visit starts from
    what the visits before it have written. -/
theorem leads_coverByGroups (coverage : Coverage) (hgrid : coverage.Suffices ds.prod P 1 G.ctx.loopLimit)
    (hvisit : ∀ τ, (∀ t < G.size, (σ t).Le (τ t)) →
      G.Oriented op H launch g ((launch.coverByGroups coverage op.space).run n).2 τ → G.Foresees H launch τ →
        ∀ k out, Q k out →
        g + k * P < ds.prod → G.Leads (G.Knowing (arrived τ op.space ds (g + k * P))) (m.puts out) code (G.Knowing τ)
          fun out' => Q (k + 1) (out ++ out')) :
    G.Leads (G.Knowing σ) m (((launch.coverByGroups coverage op.space).run n).1.wrap code) (G.Knowing σ)
      (Q ((ds.prod - g + P - 1) / P)) := by
  cases coverage with
  | direct =>
    obtain ⟨hle, hfits⟩ := hgrid
    rw [Nat.mul_one] at hle hfits
    have fits : ∀ k : Nat, k ≤ P → Fits (k : Int) := by
      intro k hk
      unfold Fits at *
      omega
    have first : g < ds.prod → (ds.prod - g + P - 1) / P = 1 := fun h => Nat.div_eq_of_lt_le (by omega) (by omega)
    have none : ds.prod ≤ g → (ds.prod - g + P - 1) / P = 0 := fun h => Nat.div_eq_of_lt (by omega)
    refine leads_block.mpr (leads_atPoint (q := g) hop hσ.around hextents hpos (fits _ hle) .direct
      (fun t ht => .var_nat (hσ.groupId t ht) (fits g (Nat.le_of_lt hg))) (fun h => nomatch h) (fun hin => ?_)
        fun hout => ?_)
    · have visit := hvisit σ (fun _ _ => .refl _) hσ hforesees 0 [] hQ (by simpa using hin)
      simp only [Nat.zero_mul, Nat.add_zero, Nat.zero_add, List.nil_append, Store.puts_nil] at visit
      rwa [first hin]
    · rwa [none hout]
  | virtualize =>
    exact leads_pointLoop hop hgroup hσ hforesees hnumGroups hextents hpos hg Q hQ .virtualize hgrid hvisit
  | full => exact leads_pointLoop hop hgroup hσ hforesees hnumGroups hextents hpos hg Q hQ .full hgrid.2 hvisit

end Visits
end Team

/-! ### What a body makes -/

/-- Whether a write goes to an array of the host. -/
def Write.goesTo (dest : Ident) (w : Write) : Bool := decide (w.slot.space = .global ∧ w.slot.array = dest)

theorem Write.goesTo_iff {dest : Ident} {w : Write} :
    w.goesTo dest = true ↔ w.slot.space = .global ∧ w.slot.array = dest :=
  decide_eq_true_iff

/-- The body of a map makes the elements of a tile, before the results are stored. Its code starts from a fair memory,
    and leaves the threads and a memory of which something is known: that the elements are shown, that the memory is
    fair, and that the threads still know where they have arrived. Neither this code nor that of other results writes
    to the destination. What is left stays, whatever is written to the destination and whichever new variables the
    threads get, also while other results are stored. -/
structure Team.MakesTile (G : Team) (op : SegOp) (env : HostEnv) (setting : Setting) (scope : BodyScope) (n : Nat)
    (body : Stmt) (results : BoundResults) (known : Nat → Scope) (fair : Store → Prop) (dest array : Ident)
    (type : ScalarType) (size : Nat) (v : Nat → Value) (made : Store → Prop) (left : Nat → Thread → Prop) : Prop where
  body : ∀ m, fair m → G.Leads (G.Knowing known) m body.dropShared left fun ws =>
    made (m.puts ws) ∧ ∀ w ∈ ws, w.goesTo dest = false
  others : ∀ r ∈ results, r.1.name ≠ dest → ∀ s code s', n ≤ s.names →
    scope.groupResult op.space.indexExps r.1.name r.2 setting s = .ok (code, s') → ∀ m, made m →
      G.Leads left m code.dropShared left fun ws => made (m.puts ws) ∧ ∀ w ∈ ws, w.goesTo dest = false
  knows : ∀ t < G.size, ∀ th, left t th → (known t).Le (th.scope G.ctx.captured)
  shows : ∃ source, scope.Finds env array source ∧ source.view.type = type ∧
    ¬(source.view.space = .global ∧ source.view.array = dest) ∧
      ∀ m, made m → ∀ t < G.size, ∀ th, left t th → source.view.Shows size v m th
  fair : ∀ m, made m → fair m
  written : ∀ m ws, made m → (∀ w ∈ ws, w.goesTo dest = true) → made (m.puts ws)
  declared : ∀ t < G.size, ∀ th th', left t th → th'.arrays = th.arrays →
    (Scope.old n (th.scope G.ctx.captured)).Le (th'.scope G.ctx.captured) → left t th'
  dest : scope.kernelArray? dest = none

/-- A map by groups whose points are tiles of sizes `ts`, which cover extents `es`. -/
structure Segmented.Tiled (op : SegOp) (H : Surroundings) (tiles : List (Operand × Operand)) (es ts : List Nat)
    (G limit : Nat) :
    Prop where
  space : List.Forall₂ (IsInt H.scope) op.space.dimExps (ints (tileCounts es ts))
  extents : List.Forall₂ (fun p (e : Nat) => IsInt H.scope p.1.toExp e) tiles es
  sizes : List.Forall₂ (fun p (t : Nat) => IsInt H.scope p.2.toExp t) tiles ts
  rank : ts ≠ []
  extentsPositive : ∀ e ∈ es, 0 < e
  sizesPositive : ∀ t ∈ ts, 0 < t
  fits : Fits ((ts.prod + G : Nat) : Int) ∧ Fits (es.prod : Nat) ∧ Fits ((tileCounts es ts).prod : Nat) ∧
    ∀ p ∈ es.zip ts, Fits ((p.1 + p.2 : Nat) : Int)
  limit : (ts.prod + G - 1) / G ≤ limit

namespace Team
variable {op : SegOp} {H : Surroundings} {G : Team} {es ts : List Nat} {g n q limit : Nat} {m : Store} {launch : Launch}
  {σ : Nat → Scope} {tiles : List (Operand × Operand)}

/-- What a thread that has arrived at a tile knows suffices for its part in the tile. -/
theorem tiles_of_arrived (hT : op.Tiled H tiles es ts G.size limit) (hop : op.WellNamed H.env)
    (hσ : G.Oriented op H launch g n σ) (hforesees : G.Foresees H launch σ)
    (hgroupSize : IsInt H.scope launch.groupSize G.size) (hq : q < (tileCounts es ts).prod) {t : Nat}
    (ht : t < G.size) :
    launch.Tiles (arrived σ op.space (tileCounts es ts) q t) limit op.space.indexExps tiles es ts G.size q t := by
  have hnew : ∀ x ∈ op.space.names, ∀ t < G.size, σ t x = none := fun x hx t ht =>
    (hσ.around t ht).new hop x (List.mem_append_left _ hx)
  have grows : (σ t).Le (arrived σ op.space (tileCounts es ts) q t) := le_arrived hnew ht
  have host := (hσ.around t ht).host.trans grows
  refine {
    place := ht
    localId := grows _ _ (hσ.localId t ht)
    groupSize := hgroupSize.mono host
    counts := fun count hcount => (hforesees.chunkCount? ?_ hcount ht).mono grows
    extents := hT.extents.imp fun _ _ he => he.mono host
    sizes := hT.sizes.imp fun _ _ hs => hs.mono host
    rank := hT.rank
    positive := hT.sizesPositive
    tile := hq
    indices := ?_
    fits := ⟨hT.fits.1, hT.fits.2.1, hT.fits.2.2.2⟩
    limit := hT.limit }
  · rw [List.map_map, ints, List.forall₂_map_left_iff, List.forall₂_map_right_iff]
    exact hT.sizes
  · refine IterationSpace.isInts_point (List.nodup_cons.mp hop.nodup).2 hT.space ?_
    have := hT.fits.2.2.1
    unfold Fits at *
    omega

end Team

/-! ### The results of a point -/

/-- A tally in which nothing counts. -/
def Tally.nothing : Tally := ⟨0, fun _ => 0, fun _ _ _ => Nat.zero_le _⟩

/-- Names are taken one after another, also for results. -/
theorem BodyScope.names_le_of_groupResult {scope : BodyScope} {indices : List Exp} {name : Ident} {result : BodyResult}
    {setting : Setting} {s s' : Session} {code : Stmt}
    (h : scope.groupResult indices name result setting s = .ok (code, s')) :
    s.names ≤ s'.names :=
  (scope.groupResult_costs (t := Tally.nothing) indices name result s code s' h).1

theorem BodyStm.names_le_of_groupBody {scope : BodyScope} {op : SegOp} {setting : Setting} {s s' : Session}
    {r : Stmt × BodyScope} (h : groupBody scope op.stms setting s = .ok (r, s')) : s.names ≤ s'.names :=
  (groupBody_costs (t := Tally.nothing) scope (fun _ _ => rfl) s r s' h).1

theorem nodup_zip {α β : Type} : ∀ {xs : List α} {ys : List β}, xs.Nodup → (xs.zip ys).Nodup
  | [], _, _ => List.nodup_nil
  | _ :: _, [], _ => List.nodup_nil
  | _ :: _, _ :: _, h => by
    obtain ⟨hx, h⟩ := List.nodup_cons.mp h
    exact List.nodup_cons.mpr ⟨fun hmem => hx (List.of_mem_zip hmem).1, nodup_zip h⟩

/-- A function that is empty at all elements of a list but one. -/
theorem flatMap_eq_of_unique {α β : Type} {f : α → List β} {x : α} : ∀ {xs : List α}, xs.Nodup → x ∈ xs →
    (∀ y ∈ xs, y ≠ x → f y = []) → xs.flatMap f = f x
  | y :: xs, hnodup, hx, h => by
    obtain ⟨hy, hnodup⟩ := List.nodup_cons.mp hnodup
    obtain ⟨hfirst, hrest⟩ := List.forall_mem_cons.mp h
    rw [List.flatMap_cons]
    rcases List.mem_cons.mp hx with rfl | hx
    · rw [List.flatMap_eq_nil_iff.mpr fun z hz => hrest z hz fun e => hy (e ▸ hz), List.append_nil]
    · rw [hfirst fun e => hy (e ▸ hx), flatMap_eq_of_unique hnodup hx hrest, List.nil_append]

namespace Team
variable {op : SegOp} {H : Surroundings} {G : Team} {es ts : List Nat} {g n q limit : Nat} {m : Store} {launch : Launch}
  {σ : Nat → Scope} {tiles : List (Operand × Operand)} {scope : BodyScope} {setting : Setting}
  {made fair : Store → Prop} {left : Nat → Thread → Prop}

/-- The writes to one array that results make one after another are those of each of them. -/
theorem leads_results {indices : List Exp} {dest : Ident} (W : PatElem × BodyResult → List Write) :
    ∀ {results : BoundResults}
    {codes : List Stmt} {s s' : Session} {m : Store}, n ≤ s.names →
    (results.mapM fun (p, result) => scope.groupResult indices p.name result : Lowering (List Stmt)) setting s =
      .ok (codes, s') →
    (∀ r ∈ results, ∀ s code s', n ≤ s.names → scope.groupResult indices r.1.name r.2 setting s = .ok (code, s') →
      ∀ m, made m →
      G.Leads left m code.dropShared left fun ws => made (m.puts ws) ∧ (ws.filter (·.goesTo dest)).Perm (W r)) →
    made m → G.LeadsAll left m (codes.map Stmt.dropShared) left fun ws =>
      made (m.puts ws) ∧ (ws.filter (·.goesTo dest)).Perm (results.flatMap W)
  | [], _, _, _, _, _, hcodes, _, hm => by
    rw [List.mapM_nil] at hcodes
    obtain ⟨rfl, -⟩ := Lowering.pure_eq_ok.mp hcodes
    exact leadsAll_nil (fun _ _ _ => id) ⟨hm, .refl _⟩
  | r :: results, _, _, _, _, hn, hcodes, heach, hm => by
    rw [List.mapM_cons] at hcodes
    simp only [Lowering.bind_eq_ok, Lowering.pure_eq_ok] at hcodes
    obtain ⟨code, s₁, hcode, codes, _, hcodes, rfl, rfl⟩ := hcodes
    obtain ⟨hfirst, hrest⟩ := List.forall_mem_cons.mp heach
    refine LeadsAll.cons (hfirst _ _ _ hn hcode _ hm) fun ws hws => ?_
    have later := leads_results W (Nat.le_trans hn (BodyScope.names_le_of_groupResult hcode)) hcodes hrest hws.1
    refine later.imp (fun _ _ _ => id) (fun _ _ _ => id) fun ws' hws' => ?_
    rw [Store.puts_append, List.filter_append, List.flatMap_cons]
    exact ⟨hws'.1, hws.2.append hws'.2⟩

theorem goesTo_of_mem_tileWrites {dest : Ident} {v : Nat → Value} {r : Nat} {w : Write}
    (hw : w ∈ tileWrites dest es ts q v r) :
    w.goesTo dest = true := by
  unfold tileWrites at hw
  split at hw
  · rw [List.mem_singleton.mp hw]
    exact Write.goesTo_iff.mpr ⟨rfl, rfl⟩
  · cases hw

section Visits
variable {pattern : List PatElem} {e : PatElem} {array : Ident} {type : ScalarType} {shape : List Operand}
  {v : Nat → Value} {body : Stmt} (hunchecked : G.ctx.checkRaces = false) (henv : setting.env = H.env)
  (hop : op.WellNamed H.env) (hT : op.Tiled H tiles es ts G.size G.ctx.loopLimit) (hσ : G.Oriented op H launch g n σ)
  (hforesees : G.Foresees H launch σ) (hgroupSize : IsInt H.scope launch.groupSize G.size)
  (hq : q < (tileCounts es ts).prod)
  (hM : G.MakesTile op H.env setting scope n body (pattern.zip op.results) (arrived σ op.space (tileCounts es ts) q)
    fair e.name
    array type ts.prod v made left) (hlaunch : scope.launch = launch)
      (hdeclared : H.env.arrays[e.name]? = some (type, shape))
include hunchecked henv hop hT hσ hforesees hgroupSize hq hM hlaunch hdeclared

/-- The result that is a tile is stored to its places. -/
theorem leads_tileResult {s s' : Session} {code : Stmt} (hn : n ≤ s.names)
    (hcode : scope.groupResult op.space.indexExps e.name (.tile tiles array) setting s = .ok (code, s')) (hm : made m)
    (hreaches : ∀ x < es.prod, m.Reaches ⟨e.name, type, .global, false⟩ x) :
    G.Leads left m code.dropShared left fun ws => made (m.puts ws) ∧
      (ws.filter (·.goesTo e.name)).Perm ((List.range ts.prod).flatMap (tileWrites e.name es ts q v)) := by
  obtain ⟨dest, s₁, hdest, htile⟩ := Lowering.bind_eq_ok.mp hcode
  have known : scope.Finds H.env e.name ⟨⟨e.name, type, .global, false⟩, shape.map Operand.toExp⟩ :=
    .inr ⟨hM.dest, type, shape, hdeclared, rfl⟩
  obtain ⟨rfl, rfl⟩ := Solo.array_eq_ok_of_finds henv known hdest
  obtain ⟨source, hsource, htype, hapart, hshows⟩ := hM.shows
  have tile := leads_assembleTile (q := q) hunchecked htile henv hsource htype hapart
    (fun t ht th hth => hlaunch ▸ (tiles_of_arrived hT hop hσ hforesees hgroupSize hq ht).mono
      (((hM.knows t ht th hth).old (before_arrived hop (hσ.around t ht).before)).trans (Scope.old_mono hn _)))
    (fun t ht th th' hth harrays hle => hM.declared t ht th th' hth harrays ((Scope.old_mono hn _).trans hle))
      (hshows m hm) hreaches
  have writes : G.Leads left m code left fun ws => made (m.puts ws) ∧
      (ws.filter (·.goesTo e.name)).Perm ((List.range ts.prod).flatMap (tileWrites e.name es ts q v)) := by
    refine tile.imp (fun _ _ _ => id) (fun _ _ _ => id) fun ws hws => ?_
    have hdest : ∀ w ∈ ws, w.goesTo e.name = true := fun w hw => by
      obtain ⟨r, -, hr⟩ := List.mem_flatMap.mp (hws.mem_iff.mp hw)
      exact goesTo_of_mem_tileWrites hr
    rw [List.filter_eq_self.mpr hdest]
    exact ⟨hM.written m ws hm hdest, hws⟩
  exact writes.of_mimics (mimics_dropShared (BodyScope.sharedArrays_assembleTile htile))

omit hlaunch in
/-- A group makes the elements of its tile and stores them to their places, and what else its results are. -/
theorem leads_tile (hnodup : (pattern.map (·.name)).Nodup) (hmem : (e, .tile tiles array) ∈ pattern.zip op.results)
    {s s₁ s₂ : Session} {results : Stmt} (hs : s.names = n)
    (hbody : BodyStm.groupBody { launch, span := op.span } op.stms setting s = .ok ((body, scope), s₁))
    (hresults : scope.groupResults op.space.indexExps (pattern.zip op.results) setting s₁ = .ok (results, s₂))
    (hfair : fair m)
    (hreaches : ∀ x < es.prod, m.Reaches ⟨e.name, type, .global, false⟩ x) :
    G.Leads (G.Knowing (arrived σ op.space (tileCounts es ts) q)) m (Stmt.block [body, results]).dropShared
      (G.Knowing σ) fun ws =>
      fair (m.puts ws) ∧ (ws.filter (·.goesTo e.name)).Perm
        ((List.range ts.prod).flatMap (tileWrites e.name es ts q v)) := by
  have hlaunch : scope.launch = launch := (Lowering.Spares.groupBody _ _ _ hbody).1
  have hn : n ≤ s₁.names := hs ▸ BodyStm.names_le_of_groupBody hbody
  simp only [BodyScope.groupResults, Lowering.bind_eq_ok, Lowering.pure_eq_ok] at hresults
  obtain ⟨codes, _, hcodes, rfl, rfl⟩ := hresults
  let tile := (List.range ts.prod).flatMap (tileWrites e.name es ts q v)
  let W (r : PatElem × BodyResult) : List Write := if r.1.name = e.name then tile else []
  have untouched : ∀ {ws : List Write}, (∀ w ∈ ws, w.goesTo e.name = false) →
    ws.filter (·.goesTo e.name) = [] := fun h =>
    List.filter_eq_nil_iff.mpr fun w hw => by simp [h w hw]
  have same : ∀ r ∈ pattern.zip op.results, r.1.name = e.name → r = (e, .tile tiles array) := fun r hr hname =>
    mem_zip_inj hnodup hr hmem hname
  -- The result that is assembled writes the tile; every other one writes elsewhere.
  have each : ∀ r ∈ pattern.zip op.results, ∀ s code s', n ≤ s.names →
      scope.groupResult op.space.indexExps r.1.name r.2 setting s = .ok (code, s') → ∀ m,
        (made m ∧ ∀ x < es.prod, m.Reaches ⟨e.name, type, .global, false⟩ x) →
          G.Leads left m code.dropShared left fun ws =>
          (made (m.puts ws) ∧ ∀ x < es.prod, (m.puts ws).Reaches ⟨e.name, type, .global, false⟩ x) ∧
            (ws.filter (·.goesTo e.name)).Perm (W r) := by
    rintro r hr s code s' hs hcode m ⟨hm, hreaches⟩
    by_cases hname : r.1.name = e.name
    · obtain rfl := same r hr hname
      have stored := leads_tileResult hunchecked henv hop hT hσ hforesees hgroupSize hq hM hlaunch hdeclared hs hcode
        hm hreaches
      refine stored.imp (fun _ _ _ => id) (fun _ _ _ => id) fun ws hws =>
        ⟨⟨hws.1, fun x hx => (hreaches x hx).puts ws⟩, ?_⟩
      rw [show W (e, .tile tiles array) = tile from if_pos rfl]
      exact hws.2
    · refine (hM.others r hr hname s code s' hs hcode m hm).imp (fun _ _ _ => id) (fun _ _ _ => id) fun ws hws =>
        ⟨⟨hws.1, fun x hx => (hreaches x hx).puts ws⟩, ?_⟩
      rw [untouched hws.2, show W r = [] from if_neg hname]
  have total : (pattern.zip op.results).flatMap W = tile :=
    (flatMap_eq_of_unique (nodup_zip (.of_map _ hnodup)) hmem fun r hr hne => if_neg fun hname =>
      hne (same r hr hname)).trans
      (if_pos rfl)
  have code : G.Leads (G.Knowing (arrived σ op.space (tileCounts es ts) q)) m
      (.block [body.dropShared, .block (codes.map Stmt.dropShared)]) (G.Knowing σ)
      fun ws => fair (m.puts ws) ∧ (ws.filter (·.goesTo e.name)).Perm tile := by
    refine leads_block.mpr (LeadsAll.cons (hM.body m hfair) fun ws hws => leadsAll_singleton.mpr (leads_block.mpr ?_))
    have results := leads_results W hn hcodes each ⟨hws.1, fun x hx => (hreaches x hx).puts ws⟩
    refine results.imp (fun _ _ _ => id) (fun t ht th hth => ?_) fun ws' hws' => ?_
    · refine (le_arrived (fun x hx t ht => ?_) ht).trans (hM.knows t ht th hth)
      exact (hσ.around t ht).new hop x (List.mem_append_left _ hx)
    · rw [Store.puts_append, List.filter_append, untouched hws.2, List.nil_append, ← total]
      exact ⟨hM.fair _ hws'.1.1, hws'.2⟩
  refine code.of_mimics (mimics_dropShared_block.trans (.block ?_))
  exact .cons (.refl G.ctx _) (.cons mimics_dropShared_block .nil)

end Visits
end Team

/-! ### The launch -/

theorem tileCounts_pos : ∀ {es ts : List Nat}, (∀ e ∈ es, 0 < e) → (∀ t ∈ ts, 0 < t) → ∀ c ∈ tileCounts es ts, 0 < c
  | [], _, _, _ => List.forall_mem_nil _
  | _ :: _, [], _, _ => List.forall_mem_nil _
  | e :: es, t :: ts, he, ht => by
    obtain ⟨he, hes⟩ := List.forall_mem_cons.mp he
    obtain ⟨ht, hts⟩ := List.forall_mem_cons.mp ht
    exact List.forall_mem_cons.mpr ⟨Nat.div_pos (by omega) ht, tileCounts_pos hes hts⟩

theorem flatMap_range' {β : Type} (f : Nat → List β) (g k P : Nat) :
    (List.range' g k P).flatMap f = (List.range k).flatMap fun j => f (g + j * P) := by
  induction k with
  | zero => rfl
  | succ k ih =>
    rw [List.range'_concat, List.range_succ, List.flatMap_append, List.flatMap_append, ih, Nat.mul_comm P k,
      List.flatMap_singleton, List.flatMap_singleton]

namespace Segmented
variable {op : SegOp} {H : Surroundings} {pattern : List PatElem} {d : Device} {setting : Setting} {P G g : Nat}
  {k : Kernel} {e : PatElem} {tiles : List (Operand × Operand)} {array : Ident} {es ts : List Nat} {type : ScalarType}
  {shape : List Operand} {tile : Nat → Nat → Value} {fair : Store → Prop}

/-- The shared memory in which a group starts, if no two of its arrays have the same name. -/
def Stocked (ctx : GroupContext) (arrays : List SharedArray) (shared : Memory) : Prop :=
  (arrays.map (·.name)).Nodup → Run.Stocks ctx arrays {} shared

/-- The body of a map makes the elements of the tiles, in each group of a launch that comes to a point. The memory is
    fair at the start, and when a group begins after others. -/
structure MakesTiles (op : SegOp) (H : Surroundings) (setting : Setting) (d : Device) (P : Nat) {G : Nat} (hG : 0 < G)
    (arrays : List SharedArray) (results : BoundResults) (ds : List Nat) (dest array : Ident) (type : ScalarType)
    (size : Nat) (tile : Nat → Nat → Value) (fair : Store → Prop) : Prop where
  start : ∀ g < P, ∀ shared, Stocked (contextOf H d P G g) arrays shared → fair ⟨shared, H.memory⟩
  restart : ∀ m, fair m → ∀ g < P, ∀ shared, Stocked (contextOf H d P G g) arrays shared → fair ⟨shared, m.global⟩
  body : ∀ g < P, ∀ launch n σ, (groupAt H d P hG g).Oriented op H launch g n σ →
    (groupAt H d P hG g).Foresees H launch σ →
    launch.groupSize = op.grid.groupWidth → ∀ s code scope s', s.names = n →
      BodyStm.groupBody { launch, span := op.span } op.stms setting s = .ok ((code, scope), s') → ∀ q < ds.prod,
        ∃ made left,
        (groupAt H d P hG g).MakesTile op H.env setting scope n code results (Team.arrived σ op.space ds q)
          fair dest array type size
          (tile q) made left

/-- A map by groups of which one result is assembled from tiles. The groups of the launch suffice for the tiles, and the
    destination has an element for each point inside the extents. -/
structure Assembles (op : SegOp) (H : Surroundings) (pattern : List PatElem) (d : Device) (P G : Nat) (e : PatElem)
    (tiles : List (Operand × Operand)) (array : Ident) (es ts : List Nat) (type : ScalarType) (shape : List Operand) :
    Prop where
  named : op.WellNamed H.env
  level : op.grid.level = .group
  tiled : op.Tiled H tiles es ts G d.loopLimit
  sized : op.Sized H P G
  covered : op.grid.coverage.Suffices (tileCounts es ts).prod P 1 d.loopLimit
  precomputable : BodyStm.Precomputable H G op.stms
  destinations : (pattern.map (·.name)).Nodup
  result : (e, .tile tiles array) ∈ pattern.zip op.results
  declared : H.env.arrays[e.name]? = some (type, shape)

/-- The writes of a tile to the destination. -/
def tileRow (dest : Ident) (es ts : List Nat) (tile : Nat → Nat → Value) (q : Nat) : List Write :=
  (List.range ts.prod).flatMap (tileWrites dest es ts q (tile q))

/-- A group of the launch writes the tiles of which it has the turn, whatever else it writes. -/
theorem runGroup_tiles (h : op.Assembles H pattern d P G e tiles array es ts type shape)
    (hunchecked : d.checkRaces = false) (henv : setting.env = H.env) (hk : op.GroupKernel H.env setting pattern k)
    (hmakes : op.MakesTiles H setting d P h.sized.threads k.body.sharedArrays (pattern.zip op.results)
      (tileCounts es ts) e.name
      array type ts.prod tile fair)
    (hshares : Shares H k) {captured : Table Value} (hcaptured : k.body.Agrees captured (H.env.bindings H.host))
    (hg : g < P)
    {s : Device.Progress} (hfair : ∀ shared, Stocked (contextOf H d P G g) k.body.sharedArrays shared →
      fair ⟨shared, s.global⟩)
    (hreaches : ∀ x < es.prod, (Store.ofGlobal s.global).Reaches ⟨e.name, type, .global, false⟩ x) :
    ∃ s' out, Device.runGroup { contextOf H d P G g with captured } d.schedule k.body s = .ok () s' ∧
      Device.groupWrites { contextOf H d P G g with captured } d.schedule k.body s = out ∧
      s'.global = ((Store.ofGlobal s.global).puts out).global ∧
      (∀ g' < P, ∀ shared, Stocked (contextOf H d P G g') k.body.sharedArrays shared → fair ⟨shared, s'.global⟩) ∧
      (out.filter (·.goesTo e.name)).Perm
        ((Launch.visited (tileCounts es ts).prod P g).flatMap (tileRow e.name es ts tile)) := by
  obtain ⟨n, code, hhoist, hcode⟩ := hk
  let T := groupAt H d P h.sized.threads g
  let R : List Write → Prop := fun out =>
    (∀ g' < P, ∀ shared, Stocked (contextOf H d P G g') k.body.sharedArrays shared →
      fair ⟨shared, ((Store.ofGlobal s.global).puts out).global⟩) ∧
    (out.filter (·.goesTo e.name)).Perm
      ((Launch.visited (tileCounts es ts).prod P g).flatMap (tileRow e.name es ts tile))
  have arrays := Stmt.sharedArrays_hoist hhoist
  have frame : ∀ shared, Stocked (contextOf H d P G g) k.body.sharedArrays shared →
      T.Leads (fun _ th => th = {}) ⟨shared, s.global⟩ (op.frame H.env n code.dropShared) (fun _ _ => True) R := by
    intro shared hstocked
    refine Team.leads_frame h.named rfl rfl h.sized.groupSize (fun _ => h.precomputable) _
      fun found τ hfound hcount hwidth hσ hforesees => ?_
    rw [← hfound] at hcode
    clear hfound
    have reaches : ∀ x < es.prod, Store.Reaches ⟨shared, s.global⟩ ⟨e.name, type, .global, false⟩ x := fun x hx =>
      (hreaches x hx).of_layout rfl
    have hnumGroups : IsInt H.scope found.1.1.numGroups P := hcount ▸ h.sized.numGroups
    have hgroupSize : IsInt H.scope found.1.1.groupSize G := hwidth ▸ h.sized.groupSize
    rw [h.level]
    -- After `j` turns the group has written its first `j` tiles, and the memory is still fair.
    let Q (j : Nat) (out : List Write) : Prop := fair ((⟨shared, s.global⟩ : Store).puts out) ∧
      (out.filter (·.goesTo e.name)).Perm ((List.range j).flatMap fun i => tileRow e.name es ts tile (g + i * P))
    have visit : ∀ υ, T.Oriented op H found.1.1 g
      ((found.1.1.coverByGroups op.grid.coverage op.space).run found.2).2 υ →
        T.Foresees H found.1.1 υ → ∀ j out, Q j out → g + j * P < (tileCounts es ts).prod →
        T.Leads (T.Knowing (Team.arrived υ op.space (tileCounts es ts) (g + j * P)))
          ((⟨shared, s.global⟩ : Store).puts out)
          code.dropShared (T.Knowing υ) fun out' => Q (j + 1) (out ++ out') := by
      intro υ hυ hforesees' j out hout hq
      obtain ⟨body, scope, results, s₀, s₁, s₂, hnames, hbody, hresults, rfl⟩ := hcode
      obtain ⟨made, left, hM⟩ := hmakes.body g hg _ _ υ hυ hforesees' hwidth s₀ body scope s₁ hnames hbody
        (g + j * P) hq
      refine (Team.leads_tile hunchecked henv h.named h.tiled hυ hforesees' hgroupSize hq hM h.declared
        h.destinations h.result
        hnames hbody hresults hout.1 fun x hx => (reaches x hx).puts out).imp (fun _ _ _ => id) (fun _ _ _ => id)
          fun ws hws => ?_
      rw [← Store.puts_append] at hws
      refine ⟨hws.1, ?_⟩
      rw [List.filter_append, List.range_succ, List.flatMap_append, List.flatMap_singleton]
      exact hout.2.append hws.2
    have visits := Team.leads_coverByGroups h.named rfl hσ hforesees hnumGroups h.tiled.space
      (tileCounts_pos h.tiled.extentsPositive h.tiled.sizesPositive) hg Q ⟨hfair shared hstocked, .refl _⟩
        op.grid.coverage
      h.covered fun υ _ hυ hforesees' => visit υ hυ hforesees'
    refine visits.imp (fun _ _ _ => id) (fun _ _ _ _ => trivial) fun out hout =>
      ⟨fun g' hg' shared' hstocked' => ?_, ?_⟩
    · have := hmakes.restart _ hout.1 g' hg' shared' hstocked'
      rwa [Store.global_puts] at this
    · rw [Launch.visited, Int.toNat_natCast, flatMap_range']
      exact hout.2
  obtain ⟨s', hrun, hR, hs'⟩ := runGroup_of_hoisted (T := T) rfl rfl rfl
    h.sized.groupSize.fits hhoist hshares hcaptured (s := s) (R := R)
    (Team.mimics_frame h.named rfl rfl h.sized.groupSize (fun _ => h.precomputable) n code)
    fun shared hstocked => frame shared (arrays ▸ hstocked)
  exact ⟨s', _, hrun, rfl, hs', hs' ▸ hR.1, hR.2⟩

/-- The groups of a launch write all tiles, each element of the destination once. -/
theorem tiles_perm (h : op.Tiled H tiles es ts G d.loopLimit) (hP : 0 < P) (dest : Ident) (tile : Nat → Nat → Value) :
    ((List.range P).flatMap fun g =>
      ((Launch.visited (tileCounts es ts).prod P g).flatMap (tileRow dest es ts tile)).map (g, ·)).Perm
      ((List.range es.prod).map fun x =>
        (tileOf es ts x % P, ⟨⟨.global, dest, x⟩, (tile (tileOf es ts x) (spotOf es ts x)).toBits⟩)) := by
  have hlength : es.length = ts.length := h.extents.length_eq.symm.trans h.sizes.length_eq
  let row (q : Nat) : List (Nat × Write) := (tileRow dest es ts tile q).map (q % P, ·)
  have groups : ((List.range P).flatMap fun g =>
      ((Launch.visited (tileCounts es ts).prod P g).flatMap (tileRow dest es ts tile)).map (g, ·)) =
      ((List.range P).flatMap (Launch.visited (tileCounts es ts).prod P)).flatMap row := by
    rw [List.flatMap_assoc]
    refine List.flatMap_congr fun g hg => ?_
    rw [List.map_flatMap]
    refine List.flatMap_congr fun q hq => ?_
    rw [← ((Launch.mem_visited (List.mem_range.mp hg)).mp hq).2]
  have rows : (List.range (tileCounts es ts).prod).flatMap row = (List.range (tileCounts es ts).prod).flatMap fun q =>
      (List.range ts.prod).flatMap fun r => if Inside (ints es) (ints (spotIndices es ts q r)) then
        [(q % P, ⟨⟨.global, dest, place es (spotIndices es ts q r)⟩, (tile q r).toBits⟩)] else [] := by
    refine List.flatMap_congr fun q _ => ?_
    rw [show row q = (tileRow dest es ts tile q).map (q % P, ·) from rfl, tileRow, List.map_flatMap]
    refine List.flatMap_congr fun r _ => ?_
    unfold tileWrites
    split <;> rfl
  rw [groups]
  refine ((Launch.flatMap_visited _ P hP).flatMap_right row).trans ?_
  rw [Int.toNat_natCast, rows]
  exact spots_perm hlength h.sizesPositive fun q r x => (q % P, (⟨⟨.global, dest, x⟩, (tile q r).toBits⟩ : Write))

/-- The launch of the kernel writes each element of the destination once, in the group of its tile. -/
theorem runKernel_tiles (h : op.Assembles H pattern d P G e tiles array es ts type shape)
    (hunchecked : d.checkRaces = false) (henv : setting.env = H.env) (hframes : op.Frames H k)
    (hk : op.GroupKernel H.env setting pattern k)
    (hmakes : op.MakesTiles H setting d P h.sized.threads k.body.sharedArrays (pattern.zip op.results)
      (tileCounts es ts) e.name
      array type ts.prod tile fair)
    (hshares : Shares H k) (hreaches : ∀ x < es.prod,
      (Store.ofGlobal H.memory).Reaches ⟨e.name, type, .global, false⟩ x)
    (stats : LaunchStats) : ∃ s', d.runKernel H.host k ⟨H.memory, stats⟩ = .ok () s' ∧
      s'.global = Device.written H.memory (d.kernelWrites H.host k ⟨H.memory, stats⟩) ∧
      ((d.kernelWrites H.host k ⟨H.memory, stats⟩).filter (·.2.goesTo e.name)).Perm ((List.range es.prod).map fun x =>
        (tileOf es ts x % P, ⟨⟨.global, e.name, x⟩, (tile (tileOf es ts x) (spotOf es ts x)).toBits⟩)) := by
  obtain ⟨captured, hcaptures, hagrees⟩ := hframes.captures
  have hcontext := h.sized.context_eq (d := d) hframes.numGroups hframes.groupSize hcaptures
  have hP : (Int64.ofNat P).toInt = P := toInt_ofNat_of_fits h.sized.numGroups.fits
  let row (g : Nat) : List (Nat × Write) :=
    ((Launch.visited (tileCounts es ts).prod P g).flatMap (tileRow e.name es ts tile)).map (g, ·)
  -- The claim of the groups so far: the tiles of which they had the turn are written.
  obtain ⟨s', hrun, hQ, hs'⟩ := Device.runKernel_of_groups stats hcontext hP
    (fun g past => (∀ g' < P, ∀ shared, Stocked (contextOf H d P G g') k.body.sharedArrays shared →
        fair ⟨shared, Device.written H.memory past⟩) ∧
      (past.filter (·.2.goesTo e.name)).Perm ((List.range g).flatMap row))
    ⟨fun g' hg' shared hstocked => hmakes.start g' hg' shared hstocked, .refl _⟩ fun g hg past s hQ hs => by
      have reaches : ∀ x < es.prod, (Store.ofGlobal s.global).Reaches ⟨e.name, type, .global, false⟩ x := fun x hx => by
        rw [hs]
        exact ((hreaches x hx).puts (past.map (·.2))).of_layout rfl
      obtain ⟨s', out, hgroup, hout, hglobal, hfair, hperm⟩ :=
        runGroup_tiles h hunchecked henv hk hmakes hshares hagrees hg
        (fun shared hstocked => hs ▸ hQ.1 g hg shared hstocked) reaches
      have hnext : s'.global = Device.written H.memory (past ++ out.map (g, ·)) := by
        rw [hglobal, hs, Device.written, Device.written, ← Store.global_puts, ← Store.puts_append, List.map_append,
          List.map_map]
        congr 3
        exact (List.map_id out).symm
      have more : ((past ++ out.map (g, ·)).filter (·.2.goesTo e.name)).Perm ((List.range (g + 1)).flatMap row) := by
        rw [List.filter_append, List.range_succ, List.flatMap_append, List.flatMap_singleton, List.filter_map]
        exact hQ.2.append (hperm.map _)
      subst hout
      exact ⟨s', hgroup, ⟨fun g' hg' shared hstocked => hnext ▸ hfair g' hg' shared hstocked, more⟩, hnext⟩
  exact ⟨s', hrun, hs', hQ.2.trans (tiles_perm h.tiled h.sized.groups e.name tile)⟩

end Segmented
end SegKernel
