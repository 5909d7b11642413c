import Mathlib.Data.List.Nodup
import SegKernel.Device.Basic
import SegKernel.Lowering.Program
import SegKernel.Proofs.Coverage.Points

/-! Positions and indices, and tiles that cover the points of a space. Each point lies in one tile, at one of its spots;
    the tiles at the border have spots outside of the space. -/

namespace SegKernel

/-! ### Places -/

/-- The row-major position of indices. -/
def place (ds is : List Nat) : Nat := (rowMajor (ints ds) (ints is)).toNat

theorem inside_ints_cons {d i : Nat} {ds is : List Nat} :
    Inside (ints (d :: ds)) (ints (i :: is)) ↔ i < d ∧ Inside (ints ds) (ints is) := by
  rw [ints, ints, List.map_cons, List.map_cons, inside_cons]
  simp

theorem place_cast {ds is : List Nat} (h : Inside (ints ds) (ints is)) :
    ((place ds is : Nat) : Int) = rowMajor (ints ds) (ints is) :=
  Int.toNat_of_nonneg h.rowMajor_bounds.1

theorem place_lt {ds is : List Nat} (h : Inside (ints ds) (ints is)) : place ds is < ds.prod := by
  have := h.rowMajor_bounds.2
  rw [← place_cast h, prod_ints] at this
  exact_mod_cast this

theorem place_coords {ds : List Nat} {f : Nat} (hf : f < ds.prod) : place ds (coords ds f) = f := by
  rw [place, rowMajor_coords hf, Int.toNat_natCast]

/-- Indices inside their extents are those of their position. -/
theorem exists_coords : ∀ {ds is : List Nat}, Inside (ints ds) (ints is) → ∃ f < ds.prod, coords ds f = is
  | [], [], _ => ⟨0, Nat.one_pos, rfl⟩
  | [], _ :: _, h => nomatch h
  | _ :: _, [], h => nomatch h
  | d :: ds, i :: is, h => by
    obtain ⟨hi, h⟩ := inside_ints_cons.mp h
    obtain ⟨f, hf, rfl⟩ := exists_coords h
    refine ⟨i * ds.prod + f, ?_, ?_⟩
    · calc i * ds.prod + f < i * ds.prod + ds.prod := Nat.add_lt_add_left hf _
        _ = (i + 1) * ds.prod := (Nat.succ_mul i ds.prod).symm
        _ ≤ (d :: ds).prod := by
          rw [List.prod_cons]
          exact Nat.mul_le_mul_right _ hi
    · rw [coords, Nat.mul_comm, Nat.mul_add_div (Nat.zero_lt_of_lt hf), Nat.div_eq_of_lt hf, Nat.add_zero,
        Nat.mul_add_mod,
        Nat.mod_eq_of_lt hf]

theorem coords_place {ds is : List Nat} (h : Inside (ints ds) (ints is)) : coords ds (place ds is) = is := by
  obtain ⟨f, hf, rfl⟩ := exists_coords h
  rw [place_coords hf]

/-! ### Positions and indices of dimensions -/

/-- All names of scalars but some. -/
def Common.outside (names : List Ident) : Common := ⟨(· ∉ names), fun _ => False, nofun⟩

/-- Dimensions with different names for their indices. In each thread the extents are positive, and 64 bits can hold
    their product. No extent mentions an index. -/
structure GroupState.Dimensions (ctx : GroupContext) (s : GroupState) (active : List Nat) (dims : List (Ident × Exp))
    (ds : Nat → List Nat) : Prop where
  threads : active.Nodup
  inGroup : ∀ t ∈ active, t < s.threads.size
  nonempty : dims ≠ []
  distinct : (dims.map (·.1)).Nodup
  apart : ∀ d ∈ dims, ∀ y ∈ d.2.occurrences, y ∉ dims.map (·.1)
  extents : ∀ t ∈ active, List.Forall₂ (fun d (n : Nat) => Exp.IsInt (s.scope ctx t) d.2 n) dims (ds t)
  positive : ∀ t ∈ active, ∀ n ∈ ds t, 0 < n
  fits : ∀ t ∈ active, Fits (ds t).prod

namespace GroupState.Dimensions
open Exp
variable {ctx : GroupContext} {s : GroupState} {active : List Nat} {dims : List (Ident × Exp)} {ds : Nat → List Nat}
  {flat : Exp} {f : Nat → Nat} {t : Nat}

/-- The indices get the coordinates of the position, in each thread its own. -/
theorem exec (h : Dimensions ctx s active dims ds) (hflat : ∀ y ∈ flat.occurrences, y ∉ dims.map (·.1))
    (hposition : ∀ t ∈ active, IsInt (s.scope ctx t) flat (f t)) :
    Run.exec ctx (.unflatten dims flat) active s =
      .ok () (s.bindAll active fun t => (dims.map (·.1)).zip (indexValues (coords (ds t) (f t)))) := by
  let U : Common := .outside (dims.map (·.1))
  have hover : flat.Over U := hflat
  have hnames : ∀ x ∈ dims.map (·.1), ¬U x := fun x hx hout => hout hx
  rw [Stmt.unflatten_eq, Run.exec_block]
  exact Run.execAll_declareNats h.threads h.inGroup hnames (Stmt.over_indexExps hover h.apart) fun t ht =>
    Stmt.isInts_indexExps (hposition t ht) (h.extents t ht)
      (fun n hn => h.positive t ht n (List.mem_of_mem_tail hn)) (fits_prod_tail (h.positive t ht) (h.fits t ht))

theorem eq_cons (h : Dimensions ctx s active dims ds) (ht : t ∈ active) :
    ∃ d rest, ds t = d :: rest ∧ 0 < rest.prod := by
  cases hds : ds t with
  | nil => exact absurd (List.forall₂_nil_right_iff.mp (hds ▸ h.extents t ht)) h.nonempty
  | cons d rest =>
    have hpos := h.positive t ht
    rw [hds] at hpos
    exact ⟨d, rest, rfl, prod_pos_of_forall fun n hn => hpos n (List.mem_cons_of_mem d hn)⟩

/-- Of the coordinates all but the first lie inside their extents, and the first one tells whether there is a point. -/
theorem inside_iff (h : Dimensions ctx s active dims ds) (ht : t ∈ active) (f : Nat) :
    Inside (ints (ds t).tail) (ints (coords (ds t) f).tail) ∧
      ((coords (ds t) f).headD 0 < (ds t).headD 0 ↔ f < (ds t).prod) ∧
      rowMajor (ints (ds t)) (ints (coords (ds t) f)) = f := by
  obtain ⟨d, rest, hds, hpos⟩ := h.eq_cons ht
  rw [hds]
  refine ⟨inside_coords (Nat.mod_lt f hpos), ?_, rowMajor_coords_cons hpos f⟩
  rw [coords, List.headD_cons, List.headD_cons, List.prod_cons, Nat.div_lt_iff_lt_mul hpos]

/-- After the code the variables have these values, and they lead back to the position. -/
theorem after (h : Dimensions ctx s active dims ds) (ht : t ∈ active) (hposition : ∀ t ∈ active, Fits (f t)) :
    let s' := s.bindAll active fun t => (dims.map (·.1)).zip (indexValues (coords (ds t) (f t)))
    List.Forall₂ (IsInt (s'.scope ctx t)) (dims.map fun d => .var d.1) (ints (coords (ds t) (f t))) ∧
      IsInt (s'.scope ctx t) (.flatten (dims.map (·.2)) (dims.map fun d => .var d.1)) (f t) := by
  intro s'
  have hscope : s'.scope ctx t = _ := scope_bindAll ht (h.inGroup t ht)
  have hlength : (dims.map (·.1)).length = (coords (ds t) (f t)).length := by
    rw [length_coords, List.length_map, (h.extents t ht).length_eq]
  have indices : List.Forall₂ (IsInt (s'.scope ctx t)) (dims.map fun d => .var d.1) (ints (coords (ds t) (f t))) := by
    rw [hscope, show (dims.map fun d => Exp.var d.1) = (dims.map (·.1)).map .var by rw [List.map_map]; rfl]
    refine isInts_sets h.distinct hlength fun i hi => ?_
    have hle := coords_le i hi
    have := hposition t ht
    unfold Fits at *
    omega
  have extents : List.Forall₂ (IsInt (s'.scope ctx t)) (dims.map (·.2)) (ints (ds t)) := by
    rw [List.forall₂_map_left_iff, List.forall₂_map_right_iff, hscope]
    refine ((List.forall₂_and_left dims _).mpr ⟨h.apart, h.extents t ht⟩).imp fun d n ⟨hd, hn⟩ => hn.congr
      fun y hy => ?_
    exact Scope.sets_of_not_mem fun e he hname => hd y hy (hname ▸ (List.of_mem_zip he).1)
  refine ⟨indices, ?_⟩
  have hrow := (h.inside_iff ht (f t)).2.2
  have := isInt_flatten_of_fits extents indices (by simpa using h.positive t ht) (by simp)
    (by rw [hrow]; exact hposition t ht)
  rwa [hrow] at this

/-- The code that takes a position apart and the expression that puts indices together undo each other, whatever the
    expressions of the extents are. All indices but the first lie inside their extents, and the first one does just
    where there is a point at the position. -/
theorem unflatten_inverse (h : Dimensions ctx s active dims ds) :
    (∀ (flat : Exp) (f : Nat → Nat), (∀ y ∈ flat.occurrences, y ∉ dims.map (·.1)) →
      (∀ t ∈ active, IsInt (s.scope ctx t) flat (f t)) →
        ∃ s', Run.exec ctx (.unflatten dims flat) active s = .ok () s' ∧
          s' = s.bindAll active (fun t => (dims.map (·.1)).zip (indexValues (coords (ds t) (f t)))) ∧
          ∀ t ∈ active,
            List.Forall₂ (IsInt (s'.scope ctx t)) (dims.map fun d => .var d.1) (ints (coords (ds t) (f t))) ∧
            Inside (ints (ds t).tail) (ints (coords (ds t) (f t)).tail) ∧
            ((coords (ds t) (f t)).headD 0 < (ds t).headD 0 ↔ f t < (ds t).prod) ∧
            IsInt (s'.scope ctx t) (.flatten (dims.map (·.2)) (dims.map fun d => .var d.1)) (f t)) ∧
    ∀ (es : List Exp) (js : Nat → List Nat),
      (∀ t ∈ active, List.Forall₂ (IsInt (s.scope ctx t)) es (ints (js t)) ∧ Inside (ints (ds t)) (ints (js t))) →
        (∀ t ∈ active, IsInt (s.scope ctx t) (.flatten (dims.map (·.2)) es) (place (ds t) (js t))) ∧
        ∀ flat : Exp, (∀ y ∈ flat.occurrences, y ∉ dims.map (·.1)) →
          (∀ t ∈ active, flat.eval (s.scope ctx t) = (Exp.flatten (dims.map (·.2)) es).eval (s.scope ctx t)) →
            Run.exec ctx (.unflatten dims flat) active s =
              .ok () (s.bindAll active fun t => (dims.map (·.1)).zip (indexValues (js t))) := by
  constructor
  · intro flat f hflat hf
    have fits : ∀ t ∈ active, Fits (f t) := fun t ht => (hf t ht).fits
    refine ⟨_, h.exec hflat hf, rfl, fun t ht => ?_⟩
    obtain ⟨hinside, hfirst, -⟩ := h.inside_iff ht (f t)
    exact ⟨(h.after ht fits).1, hinside, hfirst, (h.after ht fits).2⟩
  · intro es js hes
    have position : ∀ t ∈ active, IsInt (s.scope ctx t) (.flatten (dims.map (·.2)) es) (place (ds t) (js t)) := by
      intro t ht
      have extents : List.Forall₂ (IsInt (s.scope ctx t)) (dims.map (·.2)) (ints (ds t)) := by
        rw [List.forall₂_map_left_iff, List.forall₂_map_right_iff]
        exact h.extents t ht
      rw [place_cast (hes t ht).2]
      exact isInt_flatten extents (hes t ht).1 (hes t ht).2 (prod_ints (ds t) ▸ h.fits t ht)
    refine ⟨position, fun flat hflat hsame => ?_⟩
    have same : ∀ t ∈ active, IsInt (s.scope ctx t) flat (place (ds t) (js t)) := fun t ht => by
      obtain ⟨a, ha, hi⟩ := position t ht
      exact ⟨a, (hsame t ht).trans ha, hi⟩
    rw [h.exec hflat same]
    refine congrArg _ (bindAll_congr fun t ht => ?_)
    rw [coords_place (hes t ht).2]

/-- The first extent is a variable, and it is not the same for both threads. -/
def sheet : List (Ident × Exp) := [("i", .var "rows"), ("j", .int 3)]

def sheetContext : GroupContext where
  captured := {}
  group := 0
  groupSize := 2
  numGroups := 1
  wave := 2
  loopLimit := 8
  checkRaces := true

/-- Position 5 of 2 rows, and position 13 of 4 rows. -/
def sheetStart : GroupState where
  threads := #[⟨(({} : Table Value).insert "rows" (.i64 2)).insert "p" (.i64 5), {}⟩,
    ⟨(({} : Table Value).insert "rows" (.i64 4)).insert "p" (.i64 13), {}⟩]
  global := {}
  stats := {}

/-- The second position is past the end, and its row as well. -/
theorem sheet_unflattened :
    ∃ s', Run.exec sheetContext (.unflatten sheet (.var "p")) [0, 1] sheetStart = .ok () s' ∧
      List.Forall₂ (IsInt (s'.scope sheetContext 0)) [.var "i", .var "j"] [1, 2] ∧
      List.Forall₂ (IsInt (s'.scope sheetContext 1)) [.var "i", .var "j"] [4, 1] ∧
      IsInt (s'.scope sheetContext 1) (.flatten [.var "rows", .int 3] [.var "i", .var "j"]) 13 := by
  have dimensions : Dimensions sheetContext sheetStart [0, 1] sheet fun t => [if t = 0 then 2 else 4, 3] := {
    threads := by decide
    inGroup := by decide
    nonempty := by decide
    distinct := by decide
    apart := by decide
    extents := List.forall_mem_cons.mpr ⟨.cons ⟨2, by decide, by decide⟩ (.cons ⟨3, by decide, by decide⟩ .nil),
      List.forall_mem_singleton.mpr (.cons ⟨4, by decide, by decide⟩ (.cons ⟨3, by decide, by decide⟩ .nil))⟩
    positive := by decide
    fits := by
      unfold Fits
      decide }
  obtain ⟨s', hrun, -, hafter⟩ :=
    (unflatten_inverse dimensions).1 (.var "p") (fun t => if t = 0 then 5 else 13) (by decide)
    (List.forall_mem_cons.mpr ⟨⟨5, by decide, by decide⟩, List.forall_mem_singleton.mpr ⟨13, by decide, by decide⟩⟩)
  exact ⟨s', hrun, (hafter 0 (by decide)).1, (hafter 1 (by decide)).1, (hafter 1 (by decide)).2.2.2⟩

end GroupState.Dimensions

namespace Device

/-- A group whose threads take the points of a space, of which the second extent is a variable of the body. -/
def rowsOf (extent : Ident) : Module where
  env := { arrays := ({} : Table _).insert "ys" (.i64, [.int 1, .int 2, .int 3]) }
  ops := [.seg [⟨"ys", .i64, [.int 1, .int 2, .int 3]⟩] {
    kind := .map
    grid := ⟨.group, .int 1, .int 6, .direct⟩
    space := ⟨"g", [("r", .int 1)]⟩
    stms := [.compute extent .i64 (.int 3), .nested [⟨"a", .i64, [.int 2, .int 3]⟩] {
      kind := .map
      grid := ⟨.thread, .int 1, .int 6, .full⟩
      space := ⟨"l", [("m", .int 2), ("j", .var extent)]⟩
      stms := []
      results := [.returns (.var "j")] }]
    results := [.returns (.var "a")] }]

/-- An index with the name of the extent of another one is declared first. The extent is zero then, and the next index
    cannot be computed. -/
theorem ownExtent_goes_wrong :
    let d : Device := { wave := 1, global := ({} : Memory).insert "ys" (.ofValues .i64 (List.replicate 6 (.i64 9))) }
    (∃ p, (rowsOf "n").lower {} = .ok p ∧
      (d.run p).2.global["ys"]?.map Buffer.values = some ([0, 1, 2, 0, 1, 2].map Value.i64)) ∧
    ∃ p, (rowsOf "m").lower {} = .ok p ∧ (d.run p).1 = .error .divisionByZero := by
  intro d
  constructor
  · obtain ⟨p, hp, hvalues⟩ : ∃ p ∈ ((rowsOf "n").lower {}).toOption,
        (d.run p).2.global["ys"]?.map Buffer.values = some ([0, 1, 2, 0, 1, 2].map Value.i64) := by decide +kernel
    exact ⟨p, ok_of_toOption hp, hvalues⟩
  · obtain ⟨p, hp, hrun⟩ : ∃ p ∈ ((rowsOf "m").lower {}).toOption, (d.run p).1 = .error .divisionByZero := by
      decide +kernel
    exact ⟨p, ok_of_toOption hp, hrun⟩

end Device

/-! ### Tiles -/

/-- How many tiles of sizes `ts` cover extents `es`. -/
def tileCounts (es ts : List Nat) : List Nat := List.zipWith (fun e t => (e + t - 1) / t) es ts

/-- The indices of a spot, by the indices of its tile and those inside the tile. -/
def tileIndices (ts is js : List Nat) : List Nat := ((is.zip ts).zip js).map fun ((i, t), j) => i * t + j

theorem tileIndices_cons (t i j : Nat) (ts is js : List Nat) :
    tileIndices (t :: ts) (i :: is) (j :: js) = (i * t + j) :: tileIndices ts is js := rfl

/-- The tile of a point. -/
def tileOf (es ts : List Nat) (x : Nat) : Nat := place (tileCounts es ts) (List.zipWith (· / ·) (coords es x) ts)

/-- The spot of a point in its tile. -/
def spotOf (es ts : List Nat) (x : Nat) : Nat := place ts (List.zipWith (· % ·) (coords es x) ts)

/-- The indices of spot `r` of tile `q`. -/
def spotIndices (es ts : List Nat) (q r : Nat) : List Nat := tileIndices ts (coords (tileCounts es ts) q) (coords ts r)

theorem inside_divided :
    ∀ {es ts is : List Nat}, es.length = ts.length → (∀ t ∈ ts, 0 < t) → Inside (ints es) (ints is) →
    Inside (ints (tileCounts es ts)) (ints (List.zipWith (· / ·) is ts))
  | [], [], [], _, _, _ => .nil
  | e :: es, t :: ts, i :: is, hlength, hpos, h => by
    obtain ⟨ht, hpos⟩ := List.forall_mem_cons.mp hpos
    obtain ⟨hi, h⟩ := inside_ints_cons.mp h
    refine inside_ints_cons.mpr ⟨?_, inside_divided (Nat.succ.inj hlength) hpos h⟩
    rw [← Nat.add_one_le_iff, Nat.le_div_iff_mul_le ht]
    calc (i / t + 1) * t = i / t * t + t := Nat.succ_mul _ t
      _ ≤ i + t := Nat.add_le_add_right (Nat.div_mul_le_self i t) t
      _ ≤ e + t - 1 := by omega
  | [], [], _ :: _, _, _, h => nomatch h
  | _ :: _, _ :: _, [], _, _, h => nomatch h
  | [], _ :: _, _, h, _, _ => nomatch h
  | _ :: _, [], _, h, _, _ => nomatch h

theorem inside_reduced : ∀ {ts is : List Nat}, is.length = ts.length → (∀ t ∈ ts, 0 < t) →
    Inside (ints ts) (ints (List.zipWith (· % ·) is ts))
  | [], [], _, _ => .nil
  | t :: ts, i :: is, hlength, hpos => by
    obtain ⟨ht, hpos⟩ := List.forall_mem_cons.mp hpos
    exact inside_ints_cons.mpr ⟨Nat.mod_lt i ht, inside_reduced (Nat.succ.inj hlength) hpos⟩
  | [], _ :: _, h, _ => nomatch h
  | _ :: _, [], h, _ => nomatch h

/-- A point is the spot of its tile. -/
theorem tileIndices_divided : ∀ {ts is : List Nat}, is.length = ts.length →
    tileIndices ts (List.zipWith (· / ·) is ts) (List.zipWith (· % ·) is ts) = is
  | [], [], _ => rfl
  | t :: ts, i :: is, h => by
    rw [List.zipWith_cons_cons, List.zipWith_cons_cons, tileIndices_cons, tileIndices_divided (Nat.succ.inj h),
      Nat.div_add_mod']
  | [], _ :: _, h => nomatch h
  | _ :: _, [], h => nomatch h

/-- A spot of a tile lies in no other tile, and at no other spot. -/
theorem divided_tileIndices : ∀ {ts is js : List Nat}, is.length = ts.length → Inside (ints ts) (ints js) →
    List.zipWith (· / ·) (tileIndices ts is js) ts = is ∧ List.zipWith (· % ·) (tileIndices ts is js) ts = js
  | [], [], [], _, _ => ⟨rfl, rfl⟩
  | t :: ts, i :: is, j :: js, hlength, h => by
    obtain ⟨hj, h⟩ := inside_ints_cons.mp h
    obtain ⟨hdiv, hmod⟩ := divided_tileIndices (Nat.succ.inj hlength) h
    rw [tileIndices_cons, List.zipWith_cons_cons, List.zipWith_cons_cons, hdiv, hmod, Nat.mul_comm i t,
      Nat.mul_add_div (Nat.zero_lt_of_lt hj),
      Nat.div_eq_of_lt hj, Nat.add_zero, Nat.mul_add_mod, Nat.mod_eq_of_lt hj]
    exact ⟨rfl, rfl⟩
  | [], [], _ :: _, _, h => nomatch h
  | _ :: _, _ :: _, [], _, h => nomatch h
  | [], _ :: _, _, h, _ => nomatch h
  | _ :: _, [], _, h, _ => nomatch h

section Points
variable {es ts : List Nat} (hlength : es.length = ts.length) (hpos : ∀ t ∈ ts, 0 < t)
include hlength

theorem length_tileCounts : (tileCounts es ts).length = ts.length := by
  rw [tileCounts, List.length_zipWith, hlength, Nat.min_self]

theorem length_spotIndices {q r : Nat} : (spotIndices es ts q r).length = ts.length := by
  rw [spotIndices, tileIndices, List.length_map, List.length_zip, List.length_zip, length_coords, length_coords,
    length_tileCounts hlength, Nat.min_self, Nat.min_self]

include hpos

/-- Each point lies at a spot of a tile. -/
theorem spotIndices_of_point {x : Nat} (hx : x < es.prod) :
    tileOf es ts x < (tileCounts es ts).prod ∧ spotOf es ts x < ts.prod ∧
    spotIndices es ts (tileOf es ts x) (spotOf es ts x) = coords es x := by
  have hcoords : (coords es x).length = ts.length := (length_coords es x).trans hlength
  have hdivided := inside_divided hlength hpos (inside_coords hx)
  have hreduced := inside_reduced hcoords hpos
  refine ⟨place_lt hdivided, place_lt hreduced, ?_⟩
  rw [spotIndices, tileOf, spotOf, coords_place hdivided, coords_place hreduced, tileIndices_divided hcoords]

omit hpos in
/-- The spots of tiles that lie inside are those of their points. -/
theorem point_of_spotIndices {q r : Nat} (hq : q < (tileCounts es ts).prod) (hr : r < ts.prod)
    (hinside : Inside (ints es) (ints (spotIndices es ts q r))) : ∃ x < es.prod, place es (spotIndices es ts q r) = x ∧
      tileOf es ts x = q ∧ spotOf es ts x = r := by
  obtain ⟨hdiv, hmod⟩ := divided_tileIndices ((length_coords (tileCounts es ts) q).trans (length_tileCounts hlength))
    (inside_coords hr)
  refine ⟨_, place_lt hinside, rfl, ?_, ?_⟩
  · rw [tileOf, coords_place hinside, spotIndices, hdiv, place_coords hq]
  · rw [spotOf, coords_place hinside, spotIndices, hmod, place_coords hr]

/-- The spots of all tiles that lie inside are all points, each of them once. -/
theorem spots_perm {β : Type} (w : Nat → Nat → Nat → β) :
    ((List.range (tileCounts es ts).prod).flatMap fun q => (List.range ts.prod).flatMap fun r =>
      if Inside (ints es) (ints (spotIndices es ts q r)) then [w q r (place es (spotIndices es ts q r))] else []).Perm
      ((List.range es.prod).map fun x => w (tileOf es ts x) (spotOf es ts x) x) := by
  let pair (q r : Nat) : Option (Nat × Nat) :=
    if Inside (ints es) (ints (spotIndices es ts q r)) then some (q, r) else none
  let pairs := (List.range (tileCounts es ts).prod).flatMap fun q => (List.range ts.prod).filterMap (pair q)
  have pair_eq : ∀ {q r p}, pair q r = some p ↔ Inside (ints es) (ints (spotIndices es ts q r)) ∧ p = (q, r) := by
    intro q r p
    by_cases h : Inside (ints es) (ints (spotIndices es ts q r)) <;> simp [pair, h, eq_comm]
  -- No pair of tile and spot comes twice, and the pairs that lie inside are those of the points.
  have perm : pairs.Perm ((List.range es.prod).map fun x => (tileOf es ts x, spotOf es ts x)) := by
    refine (List.perm_ext_iff_of_nodup (List.nodup_flatMap.mpr ⟨fun q _ => ?_, ?_⟩) ?_).mpr fun ⟨q, r⟩ => ?_
    · refine List.nodup_range.filterMap fun r r' p hp hp' => ?_
      obtain ⟨-, rfl⟩ := pair_eq.mp hp
      obtain ⟨-, he⟩ := pair_eq.mp hp'
      exact (Prod.mk.inj he).2
    · refine List.nodup_range.imp fun {q q'} hne p hp hp' => ?_
      obtain ⟨r, -, hr⟩ := List.mem_filterMap.mp hp
      obtain ⟨r', -, hr'⟩ := List.mem_filterMap.mp hp'
      obtain ⟨-, rfl⟩ := pair_eq.mp hr
      obtain ⟨-, he⟩ := pair_eq.mp hr'
      exact hne (Prod.mk.inj he).1
    · refine (List.nodup_map_iff_inj_on List.nodup_range).mpr fun x hx y hy h => ?_
      obtain ⟨-, -, hx'⟩ := spotIndices_of_point hlength hpos (List.mem_range.mp hx)
      obtain ⟨-, -, hy'⟩ := spotIndices_of_point hlength hpos (List.mem_range.mp hy)
      obtain ⟨htile, hspot⟩ := Prod.mk.inj h
      rw [← place_coords (List.mem_range.mp hx), ← hx', htile, hspot, hy', place_coords (List.mem_range.mp hy)]
    · simp only [List.mem_flatMap, List.mem_map, List.mem_filterMap, List.mem_range, pair_eq, Prod.mk.injEq]
      constructor
      · rintro ⟨q, hq, r, hr, hinside, rfl, rfl⟩
        obtain ⟨x, hx, -, htile, hspot⟩ := point_of_spotIndices hlength hq hr hinside
        exact ⟨x, hx, htile, hspot⟩
      · rintro ⟨x, hx, rfl, rfl⟩
        obtain ⟨hq, hr, hspot⟩ := spotIndices_of_point hlength hpos hx
        exact ⟨_, hq, _, hr, hspot ▸ inside_coords hx, rfl, rfl⟩
  have hpairs : pairs.map (fun p => w p.1 p.2 (place es (spotIndices es ts p.1 p.2))) =
      (List.range (tileCounts es ts).prod).flatMap fun q => (List.range ts.prod).flatMap fun r =>
        if Inside (ints es) (ints (spotIndices es ts q r)) then [w q r (place es (spotIndices es ts q r))] else [] := by
    rw [List.map_flatMap]
    refine List.flatMap_congr fun q _ => ?_
    rw [List.map_filterMap, List.filterMap_eq_flatMap_toList]
    refine List.flatMap_congr fun r _ => ?_
    by_cases h : Inside (ints es) (ints (spotIndices es ts q r)) <;> simp [pair, h]
  rw [← hpairs]
  refine (perm.map _).trans (List.Perm.of_eq ?_)
  rw [List.map_map]
  refine List.map_congr_left fun x hx => ?_
  obtain ⟨-, -, hspot⟩ := spotIndices_of_point hlength hpos (List.mem_range.mp hx)
  simp only [Function.comp_apply]
  rw [hspot, place_coords (List.mem_range.mp hx)]

end Points
end SegKernel
