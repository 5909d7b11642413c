import Mathlib.Tactic.Ring
import SegKernel.Collective.Layout
import SegKernel.Device.Basic
import SegKernel.Lowering.Nested
import SegKernel.Lowering.Program
import SegKernel.Proofs.Evaluation.Known
import SegKernel.Proofs.Evaluation.Words
import SegKernel.Proofs.Execution.Threads
import SegKernel.Proofs.Lowering.Yields
import SegKernel.Proofs.Maps.Tiles
import SegKernel.Proofs.Races.Groups
import SegKernel.Proofs.Races.Knowledge

/-! The two elementary steps of a collective operation, combining two elements and copying one, access
    nothing but the elements that they name. -/

namespace SegKernel

namespace Watch
variable {W : Watch} {R : W.Rights} {t : Nat} {τ : Scope} {views : List View} {view : View} {index : Exp}
  {isWrite : Bool}

/-- Whether a view is cached makes no difference to the rights. -/
theorem Grants.withVolatile (h : W.Grants R t τ views index isWrite) (hview : view ∈ views) (volatile : Bool) :
    W.Grants R t τ [view.withVolatile volatile] index isWrite := by
  intro σ hσ i hi v hv
  obtain rfl := List.mem_singleton.mp hv
  exact h σ hσ i hi view hview

end Watch

namespace Collective
open Watch

/-- The number of lanes of an element is known. -/
def LanesKnown (c : Collective) (τ : Scope) : Prop :=
  match c.layout with
  | .shared _ => True
  | .rows lanes _ => ∃ n, lanes.eval τ = .ok (.i64 n)

/-- A thread has the right to an access of all lanes of an element. -/
def GrantsCell (c : Collective) (W : Watch) (R : W.Rights) (t : Nat) (τ : Scope) (cell : Cell) (isWrite : Bool) :
    Prop :=
  match c.layout with
  | .shared _ => W.Grants R t τ c.views (c.address cell (.int 0)) isWrite
  | .rows lanes _ => ∀ n, lanes.eval τ = .ok (.i64 n) → ∀ j, τ j = none → ∀ k < n.toInt.toNat,
      W.Grants R t (τ.set j (.i64 (Int64.ofNat k))) c.views (c.address cell (.var j)) isWrite

variable {c : Collective} {n : Nat}

/-- Code that a thread obeys if it has the rights that the code needs for a lane. -/
theorem eachLane_obeys {body : Exp → Fresh Stmt} (needs : List (Cell × Bool))
    (h : ∀ lane m, n ≤ m → Fresh.At m (body lane) fun _ code => ∀ (W : Watch) (R : W.Rights) t τ, τ.Before m →
      (∀ p ∈ needs, W.Grants R t τ c.views (c.address p.1 lane) p.2) → W.Obeys R t τ [code] τ) :
    Fresh.At n (c.layout.eachLane body) fun _ code => ∀ (W : Watch) (R : W.Rights) t τ, τ.Before n → c.LanesKnown τ →
      (∀ p ∈ needs, c.GrantsCell W R t τ p.1 p.2) → W.Obeys R t τ [code] τ := by
  unfold LanesKnown GrantsCell
  cases hlayout : c.layout with
  | shared base =>
    exact (h (.int 0) n (Nat.le_refl n)).imp fun _ code _ hcode W R t τ hτ _ hneeds => hcode W R t τ hτ hneeds
  | rows lanes regionLength =>
    refine .take ?_
    refine (h _ (n + 1) (Nat.le_succ n)).bind fun m code _ hcode => .pure ?_
    intro W R t τ hτ hlanes hneeds
    obtain ⟨count, hcount⟩ := hlanes
    have hnew : τ (numbered "lane" n) = none := hτ.fresh (by decide) (Nat.le_refl n)
    refine .loop hcount fun k hk => ?_
    have hbefore : (τ.set (numbered "lane" n) (.i64 (Int64.ofNat k))).Before (n + 1) :=
      hτ.set (Nat.le_succ n) (Nat.lt_succ_self n)
    refine (hcode W R t _ hbefore fun p hp => ?_).forget (Scope.le_set hnew)
    exact hneeds p hp count hcount _ hnew k hk

theorem loadOperands_obeys (volatile : Bool) (left right : Cell) (lane : Exp) {view : View} (hview : view ∈ c.views)
    (param : Param) : Fresh.At n (c.loadOperands volatile left right lane view param) fun _ loads =>
      ∀ (W : Watch) (R : W.Rights) t τ, τ.Before n → W.Grants R t τ c.views (c.address left lane) false →
        W.Grants R t τ c.views (c.address right lane) false → W.Obeys R t τ loads.2.2 τ := by
  refine .take (.take (.pure ?_))
  intro W R t τ hτ hleft hright
  have hx : τ (numbered "x" n) = none := hτ.fresh (by decide) (Nat.le_refl n)
  have hy : τ (numbered "y" (n + 1)) = none := hτ.fresh (by decide) (Nat.le_succ n)
  have left := Obeys.read hx (hleft.withVolatile hview volatile)
  have right := Obeys.read hy (hright.withVolatile hview volatile)
  exact (Obeys.declare _ _ hx).cons (left.cons ((Obeys.declare _ _ hy).cons right))

theorem combineLane_obeys (dest left right : Cell) (keepRight : Option Exp) (volatile : Bool) (lane : Exp) :
    Fresh.At n (c.combineLane dest left right keepRight volatile lane) fun _ code =>
      ∀ (W : Watch) (R : W.Rights) t τ, τ.Before n →
        (∀ p ∈ [(left, false), (right, false), (dest, true)], W.Grants R t τ c.views (c.address p.1 lane) p.2) →
          W.Obeys R t τ [code] τ := by
  refine (Fresh.At.mapM (Q := fun loads => ∀ (W : Watch) (R : W.Rights) t τ, τ.Before n →
    W.Grants R t τ c.views (c.address left lane) false → W.Grants R t τ c.views (c.address right lane) false →
      W.Obeys R t τ loads.2.2 τ) fun p hp m hm => ?_).bind fun m loads _ hloads => .pure ?_
  · refine (loadOperands_obeys volatile left right lane (List.of_mem_zip hp).1 p.2).imp fun _ l _ hl => ?_
    exact fun W R t τ hτ => hl W R t τ (hτ.mono hm)
  · intro W R t τ hτ hneeds
    have hleft := hneeds (left, false) (by simp)
    have hright := hneeds (right, false) (by simp)
    have hdest := hneeds (dest, true) (by simp)
    refine .block (.append (.flatMap fun l hl => hloads l hl W R t τ hτ hleft hright)
      (.forall_mem fun stmt hstmt => ?_))
    obtain ⟨⟨⟨view, result⟩, y⟩, hmem, rfl⟩ := List.mem_map.mp hstmt
    have hview : view ∈ c.views := (List.of_mem_zip (List.of_mem_zip hmem).1).1
    exact .write _ (hdest.withVolatile hview volatile)

/-- Combining two elements reads them and writes the destination. -/
theorem combine_obeys (dest left right : Cell) (keepRight : Option Exp) (volatile : Bool) :
    Fresh.At n (c.combine dest left right keepRight volatile) fun _ code =>
      ∀ (W : Watch) (R : W.Rights) t τ, τ.Before n → c.LanesKnown τ → c.GrantsCell W R t τ left false →
        c.GrantsCell W R t τ right false → c.GrantsCell W R t τ dest true → W.Obeys R t τ [code] τ := by
  refine (eachLane_obeys [(left, false), (right, false), (dest, true)]
    fun lane _ _ => combineLane_obeys dest left right keepRight volatile lane).imp fun _ code _ h => ?_
  intro W R t τ hτ hlanes hleft hright hdest
  exact h W R t τ hτ hlanes (by simp [hleft, hright, hdest])

theorem copyLane_obeys (dest source : Cell) (lane : Exp) :
    Fresh.At n (c.copyLane dest source lane) fun _ code => ∀ (W : Watch) (R : W.Rights) t τ, τ.Before n →
      (∀ p ∈ [(source, false), (dest, true)], W.Grants R t τ c.views (c.address p.1 lane) p.2) →
        W.Obeys R t τ [code] τ := by
  refine (Fresh.At.mapM (Q := fun part => ∀ (W : Watch) (R : W.Rights) t τ, τ.Before n →
    W.Grants R t τ c.views (c.address source lane) false → W.Grants R t τ c.views (c.address dest lane) true →
      W.Obeys R t τ part τ) fun p hp m hm => ?_).bind fun m parts _ hparts => .pure ?_
  · refine .take (.pure ?_)
    intro W R t τ hτ hsource hdest
    have hview : p.1 ∈ c.views := (List.of_mem_zip hp).1
    have hv : τ (numbered "v" m) = none := hτ.fresh (by decide) hm
    have read := Obeys.read hv (hsource.withVolatile hview c.layout.isRows)
    exact (Obeys.declare _ _ hv).cons (read.cons (.write _ (hdest.withVolatile hview c.layout.isRows)))
  · intro W R t τ hτ hneeds
    rw [← List.flatMap_id]
    have hsource := hneeds (source, false) (by simp)
    have hdest := hneeds (dest, true) (by simp)
    exact .block (.flatMap fun part hpart => hparts part hpart W R t τ hτ hsource hdest)

/-- Copying an element reads it and writes the destination. -/
theorem copy_obeys (dest source : Cell) : Fresh.At n (c.copy dest source) fun _ code =>
    ∀ (W : Watch) (R : W.Rights) t τ, τ.Before n → c.LanesKnown τ → c.GrantsCell W R t τ source false →
      c.GrantsCell W R t τ dest true → W.Obeys R t τ [code] τ := by
  refine (eachLane_obeys [(source, false), (dest, true)] fun lane _ _ => copyLane_obeys dest source lane).imp
    fun _ code _ h => ?_
  intro W R t τ hτ hlanes hsource hdest
  exact h W R t τ hτ hlanes (by simp [hsource, hdest])

end Collective

/-! ## Where elements lie

Where the elements of a collective operation lie. Different elements lie at different indices, so the
rights of threads can be given element by element. -/

/-- Where the elements lie in each array: from a base on, or in rows of some lanes after the rows of the
    groups before. -/
inductive Site
  | shared (base : Int64)
  | rows (lanes regionLength first : Int64)

namespace Site

/-- The index of a lane of an element. -/
def index (place : Site) (region element lane : Int64) : Int64 :=
  match place with
  | shared base => base + element
  | rows lanes regionLength first => region * regionLength + (first + element) * lanes + lane

/-- The lanes that an element has. -/
def Lane (place : Site) (lane : Int64) : Prop :=
  match place with
  | shared _ => True
  | rows lanes _ _ => 0 ≤ lane.toInt ∧ lane.toInt < lanes.toInt

/-- The element lies in its region, and the region at indices that can be told apart. Without lanes there
    is nothing to tell apart. -/
def Valid (place : Site) (region element : Int64) : Prop :=
  match place with
  | shared _ => region = 0
  | rows lanes regionLength first => 0 < lanes.toInt →
    0 ≤ region.toInt ∧ (region.toInt + 1) * regionLength.toInt ≤ 9223372036854775807 ∧
      0 ≤ first.toInt ∧ 0 ≤ element.toInt ∧ (first.toInt + element.toInt + 1) * lanes.toInt ≤ regionLength.toInt

/-- An element has a lane at an index. -/
def Reaches (place : Site) (region element index : Int64) : Prop :=
  ∃ lane, place.Lane lane ∧ index = place.index region element lane

/-- A position and the remainder are told apart. -/
theorem split_inj {a b x y n : Int} (hx : 0 ≤ x ∧ x < n) (hy : 0 ≤ y ∧ y < n) (h : a * n + x = b * n + y) :
    a = b ∧ x = y := by
  have hn : n ≠ 0 := by omega
  have quotient : ∀ c z : Int, 0 ≤ z ∧ z < n → (c * n + z) / n = c := by
    intro c z hz
    rw [Int.add_comm, Int.add_mul_ediv_right _ _ hn, Int.ediv_eq_zero_of_lt hz.1 hz.2, Int.zero_add]
  have hab : a = b := by
    rw [← quotient a x hx, ← quotient b y hy, h]
  subst hab
  exact ⟨rfl, by omega⟩

theorem toInt_index_rows {lanes regionLength first region element lane : Int64}
    (hv : (rows lanes regionLength first).Valid region element) (hl : (rows lanes regionLength first).Lane lane) :
    ((rows lanes regionLength first).index region element lane).toInt =
      region.toInt * regionLength.toInt + ((first.toInt + element.toInt) * lanes.toInt + lane.toInt) := by
  obtain ⟨hl, hlt⟩ := hl
  obtain ⟨hr, hregion, hfirst, he, helement⟩ := hv (by omega)
  have hrow : (first.toInt + element.toInt) * lanes.toInt + lanes.toInt ≤ regionLength.toInt := by
    have := Int.add_mul (first.toInt + element.toInt) 1 lanes.toInt
    omega
  have hstart : region.toInt * regionLength.toInt + regionLength.toInt ≤ 9223372036854775807 := by
    have := Int.add_mul region.toInt 1 regionLength.toInt
    omega
  have hrow0 : 0 ≤ (first.toInt + element.toInt) * lanes.toInt := Int.mul_nonneg (by omega) (by omega)
  have hstart0 : 0 ≤ region.toInt * regionLength.toInt := Int.mul_nonneg hr (by omega)
  have hsum : (first.toInt + element.toInt) * 1 ≤ (first.toInt + element.toInt) * lanes.toInt :=
    Int.mul_le_mul_of_nonneg_left (by omega) (by omega)
  have e₁ : (region * regionLength).toInt = region.toInt * regionLength.toInt :=
    toInt_mul_of_fits (by unfold Fits; omega)
  have e₂ : (first + element).toInt = first.toInt + element.toInt := toInt_add_of_fits (by unfold Fits; omega)
  have e₃ : ((first + element) * lanes).toInt = (first.toInt + element.toInt) * lanes.toInt := by
    rw [← e₂]
    exact toInt_mul_of_fits (by rw [e₂]; unfold Fits; omega)
  have e₄ : (region * regionLength + (first + element) * lanes).toInt =
      region.toInt * regionLength.toInt + (first.toInt + element.toInt) * lanes.toInt := by
    rw [← e₁, ← e₃]
    exact toInt_add_of_fits (by rw [e₁, e₃]; unfold Fits; omega)
  show (region * regionLength + (first + element) * lanes + lane).toInt = _
  rw [toInt_add_of_fits (by rw [e₄]; unfold Fits; omega), e₄, Int.add_assoc]

/-- No index belongs to two elements. -/
theorem reaches_inj {place : Site} {r e r' e' i : Int64} (hv : place.Valid r e) (hv' : place.Valid r' e')
    (h : place.Reaches r e i) (h' : place.Reaches r' e' i) : r = r' ∧ e = e' := by
  obtain ⟨k, hk, rfl⟩ := h
  obtain ⟨k', hk', hi⟩ := h'
  cases place with
  | shared base => exact ⟨hv.trans hv'.symm, Int64.add_right_inj base |>.mp hi⟩
  | rows lanes regionLength first =>
    have hi := congrArg Int64.toInt hi
    rw [toInt_index_rows hv hk, toInt_index_rows hv' hk'] at hi
    have inner : ∀ e k : Int64, 0 ≤ k.toInt ∧ k.toInt < lanes.toInt → 0 ≤ first.toInt → 0 ≤ e.toInt →
        (first.toInt + e.toInt + 1) * lanes.toInt ≤ regionLength.toInt →
          0 ≤ (first.toInt + e.toInt) * lanes.toInt + k.toInt ∧
            (first.toInt + e.toInt) * lanes.toInt + k.toInt < regionLength.toInt := by
      intro e k hk hfirst he hle
      have := Int.add_mul (first.toInt + e.toInt) 1 lanes.toInt
      have : 0 ≤ (first.toInt + e.toInt) * lanes.toInt := Int.mul_nonneg (by omega) (by omega)
      omega
    have hlanes : 0 < lanes.toInt := Int.lt_of_le_of_lt hk.1 hk.2
    obtain ⟨-, -, hfirst, he, hend⟩ := hv hlanes
    obtain ⟨-, -, -, he', hend'⟩ := hv' hlanes
    obtain ⟨hr, hrest⟩ := split_inj (inner e k hk hfirst he hend) (inner e' k' hk' hfirst he' hend') hi
    obtain ⟨he, -⟩ := split_inj hk hk' hrest
    exact ⟨Int64.toInt_inj.mp hr, Int64.toInt_inj.mp (by omega)⟩

end Site

/-! ### Rights by elements -/

/-- Who may read an element of a region, or write it. -/
structure CellRights (G : Squad) (place : Site) where
  may : Nat → (region element : Int64) → Bool → Prop
  valid : ∀ {t r e isWrite}, may t r e isWrite → place.Valid r e
  apart : ∀ {t t' r e isWrite}, t < G.size → t' < G.size → may t r e true → may t' r e isWrite →
    Run.waveOf G.ctx t' = Run.waveOf G.ctx t

namespace CellRights
variable {G : Squad} {place : Site}

def rights (C : CellRights G place) : G.Rights where
  may t l isWrite := G.watched l ∧ ∃ r e, C.may t r e isWrite ∧ place.Reaches r e l.index
  watched h := h.1
  apart {t t' l isWrite} ht ht' hmay hmay' := by
    obtain ⟨-, r, e, hw, hreach⟩ := hmay
    obtain ⟨-, r', e', ho, hreach'⟩ := hmay'
    obtain ⟨rfl, rfl⟩ := Site.reaches_inj (C.valid hw) (C.valid ho) hreach hreach'
    exact C.apart ht ht' hw ho

end CellRights

/-- One thread may do anything, the others nothing. -/
def soloRights (G : Squad) (t₀ : Nat) : G.Rights where
  may t l _ := G.watched l ∧ t = t₀
  watched h := h.1
  apart _ _ h h' := by rw [h.2, h'.2]

namespace Collective
open Watch

/-- The layout of a collective is known to be a place. -/
def Lies (c : Collective) (τ : Scope) (place : Site) : Prop :=
  match c.layout, place with
  | .shared base, .shared b => base.eval τ = .ok (.i64 b)
  | .rows lanes regionLength, .rows n r first =>
    lanes.eval τ = .ok (.i64 n) ∧ regionLength.eval τ = .ok (.i64 r) ∧ c.launch.groupBase.eval τ = .ok (.i64 first)
  | _, _ => False

variable {c : Collective} {G : Squad} {place : Site} {τ τ' : Scope} {t : Nat} {cell : Cell} {e : Int64} {isWrite : Bool}

theorem Lies.mono (h : c.Lies τ place) (hle : τ.Le τ') : c.Lies τ' place := by
  unfold Lies at *
  split at h
  · exact Exp.eval_mono hle h
  · exact ⟨Exp.eval_mono hle h.1, Exp.eval_mono hle h.2.1, Exp.eval_mono hle h.2.2⟩
  · exact h

theorem Lies.lanesKnown (h : c.Lies τ place) : c.LanesKnown τ := by
  unfold Lies LanesKnown at *
  split at h
  · rename_i hlayout
    rw [hlayout]
    trivial
  · rename_i hlayout
    rw [hlayout]
    exact ⟨_, h.1⟩
  · exact h.elim

/-- All accesses to an element are accesses to its indices. -/
theorem Lies.grantsCell {W : Watch} {R : W.Rights} (h : c.Lies τ place) (he : cell.element.eval τ = .ok (.i64 e))
    (hgrant : ∀ i, place.Reaches cell.region e i → ∀ view ∈ c.views, W.Permits R t view i isWrite) :
    c.GrantsCell W R t τ cell isWrite := by
  unfold Lies at h
  unfold GrantsCell
  split at h
  · rename_i base b hlayout
    rw [hlayout]
    refine Grants.of_eval (i := b + e) ?_ (hgrant _ ⟨0, trivial, rfl⟩)
    unfold address Layout.address
    rw [hlayout]
    exact Exp.eval_add h he
  · rename_i lanes regionLength n r first hlayout
    rw [hlayout]
    obtain ⟨hlanes, hregion, hbase⟩ := h
    intro n' hn' j hj k hk
    obtain rfl : n = n' := by
      rw [hlanes] at hn'
      cases hn'
      rfl
    -- In rows the lanes of an element lie side by side, and the loop over them has each once.
    have hle := Scope.le_set (v := .i64 (Int64.ofNat k)) hj
    refine Grants.of_eval (i := cell.region * r + (first + e) * n + Int64.ofNat k) ?_
      (hgrant _ ⟨Int64.ofNat k, ?_, rfl⟩)
    · unfold address Layout.address
      rw [hlayout]
      refine Exp.eval_add (Exp.eval_add (Exp.eval_mul rfl (Exp.eval_mono hle hregion)) (Exp.eval_mul (Exp.eval_add
        (Exp.eval_mono hle hbase) (Exp.eval_mono hle he)) (Exp.eval_mono hle hlanes))) ?_
      rw [Exp.eval, Scope.set_self]
    · have := fits_toInt n
      have hfits : Fits k := by
        unfold Fits at *
        omega
      show 0 ≤ (Int64.ofNat k).toInt ∧ (Int64.ofNat k).toInt < n.toInt
      rw [toInt_ofNat_of_fits hfits]
      omega
  · exact h.elim

/-- All elements of the arrays are watched. -/
def Watched (c : Collective) (G : Squad) : Prop := ∀ view ∈ c.views, ∀ i, G.watched ⟨view.space, view.array, i⟩

/-- A right to an element is a right to its lanes. -/
theorem Lies.grantsCell_of_may {C : CellRights G place} (h : c.Lies τ place) (hwatched : c.Watched G)
    (he : cell.element.eval τ = .ok (.i64 e)) (hmay : C.may t cell.region e isWrite) :
    c.GrantsCell G.toWatch C.rights t τ cell isWrite :=
  h.grantsCell he fun i hi view hview _ => ⟨hwatched view hview i, _, e, hmay, hi⟩

/-- A thread that may do anything may access any element. -/
theorem Lies.grantsCell_solo (h : c.Lies τ place) (hwatched : c.Watched G) (he : cell.element.eval τ = .ok (.i64 e)) :
    c.GrantsCell G.toWatch (soloRights G t) t τ cell isWrite :=
  h.grantsCell he fun i _ view hview _ => ⟨hwatched view hview i, rfl⟩

end Collective

/-! ## The rows of a launch

The rows of all groups of a launch. Groups run at the same time, and no barrier orders their accesses,
so their rows must not overlap. -/
open Exp

/-- The index of a lane of an element of a group in a region, where `P` groups have `G` elements of `L` lanes each. -/
def rowPlace (P G L region group element lane : Nat) : Nat := region * (P * G * L) + (group * G + element) * L + lane

section Rows
variable {R P G L r g e l r' g' e' l' : Nat}

/-- It is a position in a space of four dimensions. -/
theorem rowPlace_eq (R : Nat) : rowPlace P G L r g e l = place [R, P, G, L] [r, g, e, l] := by
  have position : rowMajor (ints [R, P, G, L]) (ints [r, g, e, l]) = (rowPlace P G L r g e l : Nat) := by
    simp [rowMajor, rowPlace]
    ring
  rw [place, position, Int.toNat_natCast]

theorem inside_rows : Inside (ints [R, P, G, L]) (ints [r, g, e, l]) ↔ r < R ∧ g < P ∧ e < G ∧ l < L := by
  have none : Inside (ints []) (ints []) := .nil
  simp only [inside_ints_cons, none, and_true]

theorem prod_rows : [R, P, G, L].prod = R * (P * G * L) := by
  simp [Nat.mul_assoc]

theorem rowPlace_lt (hr : r < R) (hg : g < P) (he : e < G) (hl : l < L) : rowPlace P G L r g e l < R * (P * G * L) := by
  rw [rowPlace_eq R, ← prod_rows]
  exact place_lt (inside_rows.mpr ⟨hr, hg, he, hl⟩)

/-- Different groups, regions, elements and lanes have different indices. -/
theorem rowPlace_inj (hg : g < P) (he : e < G) (hl : l < L) (hg' : g' < P) (he' : e' < G) (hl' : l' < L)
    (h : rowPlace P G L r g e l = rowPlace P G L r' g' e' l') : r = r' ∧ g = g' ∧ e = e' ∧ l = l' := by
  let R := max r r' + 1
  have inside : Inside (ints [R, P, G, L]) (ints [r, g, e, l]) := inside_rows.mpr ⟨by omega, hg, he, hl⟩
  have inside' : Inside (ints [R, P, G, L]) (ints [r', g', e', l']) := inside_rows.mpr ⟨by omega, hg', he', hl'⟩
  rw [rowPlace_eq R, rowPlace_eq R] at h
  have same : [r, g, e, l] = [r', g', e', l'] := by rw [← coords_place inside, h, coords_place inside']
  simpa using same

/-- Every index of an allocation belongs to one of them. -/
theorem exists_rowPlace {i : Nat} (hi : i < R * (P * G * L)) :
    ∃ r < R, ∃ g < P, ∃ e < G, ∃ l < L, rowPlace P G L r g e l = i := by
  rw [← prod_rows] at hi
  obtain ⟨r, g, e, l, hcoords⟩ : ∃ r g e l, coords [R, P, G, L] i = [r, g, e, l] := ⟨_, _, _, _, rfl⟩
  have inside := inside_coords hi
  rw [hcoords] at inside
  obtain ⟨hr, hg, he, hl⟩ := inside_rows.mp inside
  exact ⟨r, hr, g, hg, e, he, l, hl, by rw [rowPlace_eq R, ← hcoords, place_coords hi]⟩

end Rows

/-- What a thread of a group sees of a launch of `P` groups of `G` threads. -/
structure Launch.SeenBy (l : Launch) (ctx : GroupContext) (P G g t : Nat) (σ : Scope) : Prop where
  numGroups : IsInt σ l.numGroups P
  groupSize : IsInt σ l.groupSize G
  size : ctx.groupSize = Int64.ofNat G
  globalId : σ l.globalId = some (.i64 (Run.answer { ctx with group := Int64.ofNat g } t .globalId))
  localId : σ l.localId = some (.i64 (Run.answer { ctx with group := Int64.ofNat g } t .localId))

/-- The number of values in a region. -/
theorem Launch.eval_regionLength {l : Launch} {lanes : Exp} {σ : Scope} {P G L : Nat}
    (hthreads : l.numThreads = l.numGroups * l.groupSize) (hP : IsInt σ l.numGroups P) (hG : IsInt σ l.groupSize G)
    (hL : IsInt σ lanes L) : (l.numThreads * lanes).eval σ = .ok (.i64 (Int64.ofNat (P * G * L))) := by
  rw [hthreads, Int64.ofNat_mul, Int64.ofNat_mul]
  exact eval_mul (eval_mul hP.eval_nat hG.eval_nat) hL.eval_nat

/-- The difference of its two numbers gives each thread the number of the first thread of its group. -/
theorem Launch.SeenBy.eval_groupBase {l : Launch} {ctx : GroupContext} {P G g t : Nat} {σ : Scope}
    (h : l.SeenBy ctx P G g t σ) : l.groupBase.eval σ = .ok (.i64 (Int64.ofNat (g * G))) := by
  have base := eval_sub (eval_var h.globalId) (eval_var h.localId)
  rw [Run.answer, Run.answer, h.size, Int64.add_sub_cancel, ← Int64.ofNat_mul] at base
  exact base

theorem Launch.SeenBy.eval_address {l : Launch} {lanes : Exp} {ctx : GroupContext} {P G L g t : Nat} {σ : Scope}
    (h : l.SeenBy ctx P G g t σ) (hthreads : l.numThreads = l.numGroups * l.groupSize) (hL : IsInt σ lanes L)
    {x y : Exp} {e j : Nat} (r : Nat) (he : IsInt σ x e) (hj : IsInt σ y j) :
    (Layout.address (.rows lanes (l.numThreads * lanes)) l ⟨Int64.ofNat r, x⟩ y).eval σ =
      .ok (.i64 (Int64.ofNat (rowPlace P G L r g e j))) := by
  have region := eval_regionLength hthreads h.numGroups h.groupSize hL
  have address := eval_add (eval_add (eval_mul (eval_int (Int64.ofNat r)) region)
    (eval_mul (eval_add h.eval_groupBase he.eval_nat) hL.eval_nat)) hj.eval_nat
  rwa [← Int64.ofNat_mul, ← Int64.ofNat_add, ← Int64.ofNat_mul, ← Int64.ofNat_add, ← Int64.ofNat_add] at address

namespace Nested.Context

/-- Memory for an operator on arrays. Its length is the number of all lanes of all elements of all groups in all
    regions, and the addresses of these are just the indices of the memory, each one once. What threads compute are
    the words of these numbers; where 64 bits can hold the length, they are the numbers. -/
theorem scratch_rows (c : Context) (op : Combiner) (R : Nat) (setting : Setting) (session : Session)
    (hthreads : c.launch.numThreads = c.launch.numGroups * c.launch.groupSize) :
    ∃ views layout length session',
      c.scratch op (Int64.ofNat R) setting session = .ok ((views, layout), session') ∧
      views.map (·.type) = op.lambda.resultTypes ∧ (views.map (·.array)).Nodup ∧
      session'.program.allocations = session.program.allocations ++ views.map (fun v => ⟨v.array, v.type, length⟩) ∧
      ∀ P G L : Nat,
        (∀ i, i < R * (P * G * L) ↔ ∃ r < R, ∃ g < P, ∃ e < G, ∃ l < L, rowPlace P G L r g e l = i) ∧
        (∀ r g e l r' g' e' l', g < P → e < G → l < L → g' < P → e' < G → l' < L →
          rowPlace P G L r g e l = rowPlace P G L r' g' e' l' → r = r' ∧ g = g' ∧ e = e' ∧ l = l') ∧
        (∀ ctx g t σ, c.launch.SeenBy ctx P G g t σ → IsInt σ op.lanes L →
          ∀ (r e l : Nat) x y, IsInt σ x e → IsInt σ y l →
            (layout.address c.launch ⟨Int64.ofNat r, x⟩ y).eval σ = .ok (.i64 (Int64.ofNat (rowPlace P G L r g e l))) ∧
            (SegKernel.Fits (R * (P * G * L) : Nat) → r < R → g < P → e < G → l < L →
              IsInt σ (layout.address c.launch ⟨Int64.ofNat r, x⟩ y) (rowPlace P G L r g e l))) ∧
        (∀ host, IsInt host c.launch.numGroups P → IsInt host c.launch.groupSize G → IsInt host op.lanes L →
          length.eval host = .ok (.i64 (Int64.ofNat (R * (P * G * L)))) ∧
          (SegKernel.Fits (R * (P * G * L) : Nat) → ∀ v ∈ views, ∀ s : Device.Progress,
            Device.allocate host ⟨v.array, v.type, length⟩ s =
              .ok () { s with global := s.global.insert v.array (.zeroed v.type (R * (P * G * L))) })) := by
  let regionLength := c.launch.numThreads * op.lanes
  let length := .int (Int64.ofNat R) * regionLength
  obtain ⟨views, hrun, htypes, hnames, -⟩ :=
    Lowering.mapM_allocate setting "group_scratch" length op.lambda.resultTypes session
  refine ⟨views, .rows op.lanes regionLength, length, _, Lowering.bind_eq_ok.mpr ⟨views, _, hrun, rfl⟩, htypes,
    ?_, rfl, fun P G L => ⟨fun i => ⟨exists_rowPlace, ?_⟩,
      fun r g e l r' g' e' l' hg he hl hg' he' hl' => rowPlace_inj hg he hl hg' he' hl', ?_, ?_⟩⟩
  · rw [hnames]
    exact List.Nodup.map (fun _ _ h => (numbered_inj.mp h).2) List.nodup_range'
  · rintro ⟨r, hr, g, hg, e, he, l, hl, rfl⟩
    exact rowPlace_lt hr hg he hl
  · intro ctx g t σ hseen hlanes r e l x y hx hy
    have address := hseen.eval_address hthreads hlanes r hx hy
    refine ⟨address, fun hfits hr hg he hl => ⟨_, address, toInt_ofNat_of_fits ?_⟩⟩
    have := rowPlace_lt hr hg he hl
    unfold SegKernel.Fits at *
    omega
  -- The length is evaluated on the host, before there is a group.
  · intro host hP hG hL
    have total : length.eval host = .ok (.i64 (Int64.ofNat (R * (P * G * L)))) := by
      rw [Int64.ofNat_mul]
      exact eval_mul (eval_int _) (Launch.eval_regionLength hthreads hP hG hL)
    refine ⟨total, fun hfits v _ s => ?_⟩
    have count : arrayLength v.array (Int64.ofNat (R * (P * G * L))) = .ok (R * (P * G * L)) := by
      rw [arrayLength, toInt_ofNat_of_fits hfits, if_neg (by omega), Int.toNat_natCast]
    rw [Device.allocate, evalInt, total]
    simp only [bind, Except.bind, count]

/-- Two groups of two threads, whose operator is on rows of three lanes. -/
def strips : Context where
  scope := { launch := ((Launch.start (.int 2) (.int 2)).run 0).1.1 }
  op := {
    kind := .map
    grid := ⟨.thread, .int 2, .int 2, .direct⟩
    space := ⟨"l", [("i", .int 2)]⟩
    stms := []
    results := [] }

def stripSum : Combiner where
  lambda := .ofOperator .add .i64
  neutral := [.int 0]
  shape := [.int 3]

def stripContext : GroupContext where
  captured := {}
  group := 1
  groupSize := 2
  numGroups := 2
  wave := 2
  loopLimit := 8
  checkRaces := true

/-- What the first thread of the second group sees. -/
def stripScope : Scope :=
  Scope.sets (fun _ => none) [(strips.launch.globalId, .i64 2), (strips.launch.localId, .i64 0)]

/-- With three regions, the last lane of the last element of the second group is at the last of 36 places. -/
theorem strips_last :
    ∃ views layout, ∃ length : Exp, ∃ session',
      strips.scratch stripSum 3 ⟨{}, {}⟩ {} = .ok ((views, layout), session') ∧
      length.eval (fun _ => none) = .ok (.i64 36) ∧
        IsInt stripScope (layout.address strips.launch ⟨2, .int 1⟩ (.int 2)) 35 := by
  have seen : strips.launch.SeenBy stripContext 2 2 1 0 stripScope := {
    numGroups := ⟨2, rfl, by decide⟩
    groupSize := ⟨2, rfl, by decide⟩
    size := by decide
    globalId := by decide
    localId := by decide }
  obtain ⟨views, layout, length, session', hrun, -, -, -, hrows⟩ := scratch_rows strips stripSum 3 ⟨{}, {}⟩ {} rfl
  obtain ⟨-, -, haddress, hlength⟩ := hrows 2 2 3
  refine ⟨views, layout, length, session', hrun, (hlength (fun _ => none) ⟨2, rfl, by decide⟩ ⟨2, rfl, by decide⟩
    ⟨3, rfl, by decide⟩).1, ?_⟩
  refine (haddress stripContext 1 0 stripScope seen ⟨3, rfl, by decide⟩ 2 1 2 (.int 1) (.int 2) ⟨1, rfl, by decide⟩
    ⟨2, rfl, by decide⟩).2 ?_ (by decide) (by decide) (by decide) (by decide)
  unfold SegKernel.Fits
  decide

end Nested.Context
namespace Device

/-- Two groups of four threads; the threads of a group add up what they contribute, and the group stores the sum. -/
def rowSums (dims : List (Ident × Operand)) (stms : List BodyStm) (contribution : Operand) : Module where
  env := { arrays := ({} : Table _).insert "sums" (.i64, [.int 2]) }
  ops := [.seg [⟨"sums", .i64, [.int 2]⟩] {
    kind := .map
    grid := ⟨.group, .int 2, .int 4, .direct⟩
    space := ⟨"flat", [("r", .int 2)]⟩
    stms := [.nested [⟨"s", .i64, []⟩] {
      kind := .reduce [{ lambda := .ofOperator .add .i64, neutral := [.int 0] }]
      grid := ⟨.thread, .int 2, .int 4, .direct⟩
      space := ⟨"local", dims⟩
      stms
      results := [.returns contribution] }]
    results := [.returns (.var "s")] }]

/-- The body computes `c + 10` and then adds the row to it under the same name, which is reset before. So all points
    of a row contribute its number. -/
theorem rowSums_go_wrong :
    let d : Device := { wave := 1, global := ({} : Memory).insert "sums" (.ofValues .i64 [.i64 9, .i64 9]) }
    [0, 1].map (fun r => ([0, 1, 2, 3].map (· + 10 + r)).foldl (· + ·) (0 : Int64)) = [46, 50] ∧
    ∃ p, (rowSums [("c", .int 4)] [.compute "v" .i64 (.binary .add (.var "c") (.int 10)),
        .compute "v" .i64 (.binary .add (.var "v") (.var "r"))] (.var "v")).lower {} = .ok p ∧ (d.run p).1.isOk = true ∧
      (d.run p).2.global["sums"]?.map Buffer.values = some [.i64 0, .i64 4] := by
  intro d
  refine ⟨by decide, ?_⟩
  obtain ⟨p, hp, h⟩ : ∃ p ∈ ((rowSums [("c", .int 4)] [.compute "v" .i64 (.binary .add (.var "c") (.int 10)),
        .compute "v" .i64 (.binary .add (.var "v") (.var "r"))] (.var "v")).lower {}).toOption,
          (d.run p).1.isOk = true ∧
      (d.run p).2.global["sums"]?.map Buffer.values = some [.i64 0, .i64 4] := by decide +kernel
  exact ⟨p, ok_of_toOption hp, h⟩

/-- A space of no dimensions has one point, for which the lowerer makes an array of one element. But every thread is
    in the bounds of no dimensions, so the second thread is at a place behind that element. -/
theorem rowSums_overrun :
    let d : Device := { wave := 1, global := ({} : Memory).insert "sums" (.ofValues .i64 [.i64 9, .i64 9]) }
    ∃ p, (rowSums [] [] (.int 5)).lower {} = .ok p ∧
      (d.run p).1 = .error (.outOfBounds (numbered "red_arr" 4) 1 1) := by
  intro d
  obtain ⟨p, hp, h⟩ : ∃ p ∈ ((rowSums [] [] (.int 5)).lower {}).toOption,
      (d.run p).1 = .error (.outOfBounds (numbered "red_arr" 4) 1 1) := by decide +kernel
  exact ⟨p, ok_of_toOption hp, h⟩

end Device
end SegKernel
