import Mathlib.Algebra.Ring.Int.Defs
import SegKernel.Launch.Nest
import SegKernel.Lowering.Body
import SegKernel.Proofs.Evaluation.Words
import SegKernel.Proofs.Execution.Contents

/-! The points of an iteration space in row-major order: the indices of a point, the position of indices,
    and the code that computes them. -/

namespace SegKernel

/-- The indices of the point at a row-major position. -/
def coords : List Nat → Nat → List Nat
  | [], _ => []
  | _ :: ds, f => f / ds.prod :: coords ds (f % ds.prod)

abbrev ints (ns : List Nat) : List Int := ns.map fun (n : Nat) => (n : Int)

theorem prod_ints (ds : List Nat) : (ints ds).prod = (ds.prod : Int) := by
  induction ds with
  | nil => rfl
  | cons d ds ih =>
    rw [ints, List.map_cons, List.prod_cons, List.prod_cons, Int.natCast_mul, ← ih]

/-- Each index lies between zero and its extent. -/
def Inside (extents indices : List Int) : Prop := List.Forall₂ (fun d i => 0 ≤ i ∧ i < d) extents indices

instance (extents indices : List Int) : Decidable (Inside extents indices) :=
  inferInstanceAs (Decidable (List.Forall₂ _ _ _))

/-- The row-major position of indices. -/
def rowMajor (extents indices : List Int) : Int := (extents.zip indices).foldl (fun p (d, i) => p * d + i) 0

theorem length_coords (ds : List Nat) (f : Nat) : (coords ds f).length = ds.length := by
  induction ds generalizing f with
  | nil => rfl
  | cons d ds ih => rw [coords, List.length_cons, ih, List.length_cons]

/-- The inner indices of a point, after `p` of the parts that the outer ones count. -/
theorem fold_coords : ∀ {ds : List Nat} {f : Nat} (p : Int), f < ds.prod →
    ((ints ds).zip (ints (coords ds f))).foldl (fun p (d, i) => p * d + i) p = p * ds.prod + f
  | [], f, p, hf => by
    rw [List.prod_nil, Nat.lt_one_iff] at hf
    simp [coords, hf]
  | d :: ds, f, p, hf => by
    rw [List.prod_cons] at hf
    have hpos : 0 < ds.prod := Nat.pos_of_ne_zero fun h => by simp [h] at hf
    rw [coords, ints, ints, List.map_cons, List.map_cons, List.zip_cons_cons, List.foldl_cons,
      fold_coords _ (Nat.mod_lt f hpos), List.prod_cons]
    have hf : ((f / ds.prod : Nat) : Int) * ds.prod + ((f % ds.prod : Nat) : Int) = f := by
      exact_mod_cast Nat.div_add_mod' f ds.prod
    rw [Int.natCast_mul, ← Int.mul_assoc, Int.add_mul, Int.add_assoc, hf]

/-- The indices lead back to the position, also past the end of the space, because the first one is not reduced. -/
theorem rowMajor_coords_cons {d : Nat} {ds : List Nat} (hpos : 0 < ds.prod) (f : Nat) :
    rowMajor (ints (d :: ds)) (ints (coords (d :: ds) f)) = f := by
  rw [rowMajor, coords, ints, ints, List.map_cons, List.map_cons, List.zip_cons_cons, List.foldl_cons,
    fold_coords _ (Nat.mod_lt f hpos)]
  dsimp only
  rw [Int.zero_mul, Int.zero_add]
  exact_mod_cast Nat.div_add_mod' f ds.prod

/-- The indices of a point lead back to its position. -/
theorem rowMajor_coords {ds : List Nat} {f : Nat} (hf : f < ds.prod) :
    rowMajor (ints ds) (ints (coords ds f)) = f := by
  rw [rowMajor, fold_coords 0 hf, Int.zero_mul, Int.zero_add]

theorem inside_coords : ∀ {ds : List Nat} {f : Nat}, f < ds.prod →
    Inside (ints ds) (ints (coords ds f))
  | [], _, _ => .nil
  | d :: ds, f, hf => by
    rw [List.prod_cons] at hf
    have hpos : 0 < ds.prod := Nat.pos_of_ne_zero fun h => by simp [h] at hf
    refine .cons ⟨Int.natCast_nonneg _, ?_⟩ (inside_coords (Nat.mod_lt f hpos))
    exact Int.ofNat_lt.mpr (Nat.div_lt_of_lt_mul (by rwa [Nat.mul_comm]))

/-- Indices fit into 64 bits where the extents do. -/
theorem fits_coords {ds : List Nat} (hds : ∀ d ∈ ds, Fits (d : Nat)) {f : Nat} (hf : f < ds.prod) :
    ∀ i ∈ coords ds f, Fits (i : Nat) := by
  induction ds generalizing f with
  | nil => simp [coords]
  | cons d ds ih =>
    rw [List.prod_cons] at hf
    have hpos : 0 < ds.prod := Nat.pos_of_ne_zero fun h => by simp [h] at hf
    intro i hi
    rcases List.mem_cons.mp hi with rfl | hi
    · have hlt : f / ds.prod < d := Nat.div_lt_of_lt_mul (by rwa [Nat.mul_comm])
      have := hds d List.mem_cons_self
      generalize f / ds.prod = q at *
      unfold Fits at *
      omega
    · exact ih (fun e he => hds e (List.mem_cons_of_mem d he)) (Nat.mod_lt f hpos) i hi

theorem inside_cons {d i : Int} {ds is : List Int} : Inside (d :: ds) (i :: is) ↔ (0 ≤ i ∧ i < d) ∧ Inside ds is :=
  List.forall₂_cons

theorem Inside.prod_pos : ∀ {ds is : List Int}, Inside ds is → 0 < ds.prod
  | [], [], .nil => by decide
  | d :: ds, i :: is, .cons hi h => by
    rw [List.prod_cons]
    exact Int.mul_pos (Int.lt_of_le_of_lt hi.1 hi.2) (prod_pos h)

/-- The position of indices within extents, after `p` of the parts of which there are `n`. -/
theorem Inside.fold_bounds : ∀ {ds is : List Int} {p n : Int}, Inside ds is → 0 ≤ p → p < n →
    0 ≤ (ds.zip is).foldl (fun p (d, i) => p * d + i) p ∧
      (ds.zip is).foldl (fun p (d, i) => p * d + i) p < n * ds.prod
  | [], [], p, n, .nil, hp, hn => by simpa using ⟨hp, hn⟩
  | d :: ds, i :: is, p, n, .cons hi h, hp, hn => by
    have hd : 0 < d := Int.lt_of_le_of_lt hi.1 hi.2
    have hle : p * d + d ≤ n * d := by
      rw [show p * d + d = (p + 1) * d by rw [Int.add_mul, Int.one_mul]]
      exact Int.mul_le_mul_of_nonneg_right hn (Int.le_of_lt hd)
    have hnonneg : 0 ≤ p * d := Int.mul_nonneg hp (Int.le_of_lt hd)
    have rest := fold_bounds (p := p * d + i) (n := n * d) h (by omega) (by omega)
    rwa [List.prod_cons, ← Int.mul_assoc]

theorem Inside.rowMajor_bounds {ds is : List Int} (h : Inside ds is) :
    0 ≤ rowMajor ds is ∧ rowMajor ds is < ds.prod := by
  have := h.fold_bounds (Int.le_refl 0) (show (0 : Int) < 1 by decide)
  rwa [Int.one_mul] at this

/-! ### Values of built expressions -/

namespace Scope

/-- The scope in which variables have got values, one after another. -/
def sets (σ : Scope) (entries : List (Ident × Value)) : Scope := entries.foldl (fun σ e => σ.set e.1 e.2) σ

variable {σ τ : Scope} {name : Ident} {v : Value}

/-- What is known of other variables stays known. -/
theorem Le.set_right (h : σ.Le τ) (hname : σ name = none) : σ.Le (τ.set name v) :=
  (Scope.le_set hname).trans h.set

theorem Le.sets (h : σ.Le τ) (entries : List (Ident × Value)) : (σ.sets entries).Le (τ.sets entries) := by
  induction entries generalizing σ τ with
  | nil => exact h
  | cons e entries ih => exact ih h.set

theorem Le.sets_right {entries : List (Ident × Value)} (h : σ.Le τ) (hnames : ∀ e ∈ entries, σ e.1 = none) :
    σ.Le (τ.sets entries) := by
  induction entries generalizing τ with
  | nil => exact h
  | cons e entries ih =>
    exact ih (h.set_right (hnames e List.mem_cons_self)) fun e' he' => hnames e' (List.mem_cons_of_mem e he')

theorem sets_of_not_mem {entries : List (Ident × Value)} (h : ∀ e ∈ entries, e.1 ≠ name) :
    σ.sets entries name = σ name := by
  induction entries generalizing σ with
  | nil => rfl
  | cons e entries ih =>
    exact (ih fun e' he' => h e' (List.mem_cons_of_mem e he')).trans (set_of_ne (h e List.mem_cons_self))

end Scope

namespace Exp
variable {σ : Scope}

theorem IsInt.congr {τ : Scope} {x : Exp} {i : Int} (h : IsInt σ x i) (hsame : ∀ y ∈ x.occurrences, τ y = σ y) :
    IsInt τ x i := by
  obtain ⟨a, ha, hi⟩ := h
  exact ⟨a, (eval_congr hsame).trans ha, hi⟩

theorem prod_pos_of_forall {ds : List Nat} (h : ∀ d ∈ ds, 0 < d) : 0 < ds.prod := by
  induction ds with
  | nil => exact Nat.one_pos
  | cons d ds ih =>
    rw [List.prod_cons]
    exact Nat.mul_pos (h d List.mem_cons_self) (ih fun e he => h e (List.mem_cons_of_mem d he))

/-- Where a product of positive factors stays in the range, so does the product of all but the first. -/
theorem fits_prod_tail {ds : List Nat} (hpos : ∀ d ∈ ds, 0 < d) (hfits : Fits ds.prod) : Fits ds.tail.prod := by
  cases ds with
  | nil => exact hfits
  | cons d ds =>
    rw [List.prod_cons] at hfits
    have : ds.prod ≤ d * ds.prod := Nat.le_mul_of_pos_left _ (hpos d List.mem_cons_self)
    rw [List.tail_cons]
    unfold Fits at *
    omega

theorem IsInt.eval_nat {x : Exp} {n : Nat} (h : IsInt σ x n) : x.eval σ = .ok (.i64 (Int64.ofNat n)) := by
  rw [h.eval, Int64.ofInt_eq_ofNat]

/-- A product of factors wraps around where it leaves the range. -/
theorem eval_product {xs : List Exp} {ds : List Nat} (h : List.Forall₂ (fun x (d : Nat) => IsInt σ x d) xs ds) :
    (Exp.product xs).eval σ = .ok (.i64 (Int64.ofNat ds.prod)) := by
  have fold : ∀ {xs : List Exp} {ds : List Nat} (x : Exp) (p : Nat),
    List.Forall₂ (fun x (d : Nat) => IsInt σ x d) xs ds →
      x.eval σ = .ok (.i64 (Int64.ofNat p)) →
      (xs.foldl (· * ·) x).eval σ = .ok (.i64 (Int64.ofNat (p * ds.prod))) := by
    intro xs ds x p h
    induction h generalizing x p with
    | nil =>
      intro hx
      simpa using hx
    | @cons y d ys ds hy _ ih =>
      intro hx
      rw [List.prod_cons, ← Nat.mul_assoc]
      refine ih _ _ ?_
      rw [Int64.ofNat_mul]
      exact eval_mul hx hy.eval_nat
  have := fold (.int 1) 1 h (eval_int 1)
  rwa [Nat.one_mul] at this

theorem isInt_product {xs : List Exp} {ds : List Nat} (h : List.Forall₂ (fun x (d : Nat) => IsInt σ x d) xs ds)
    (hfits : Fits ds.prod) : IsInt σ (.product xs) ds.prod :=
  ⟨_, eval_product h, toInt_ofNat_of_fits hfits⟩

/-- A position does not decrease on the way to the inner indices. -/
theorem le_fold : ∀ {ds is : List Int} {p : Int}, (∀ d ∈ ds, 0 < d) → (∀ i ∈ is, 0 ≤ i) → 0 ≤ p →
    p ≤ (ds.zip is).foldl (fun p (d, i) => p * d + i) p
  | [], _, _, _, _, _ | _ :: _, [], _, _, _, _ => Int.le_refl _
  | d :: ds, i :: is, p, hds, his, hp => by
    obtain ⟨hd, hds⟩ := List.forall_mem_cons.mp hds
    obtain ⟨hi, his⟩ := List.forall_mem_cons.mp his
    have hle : p * 1 ≤ p * d := Int.mul_le_mul_of_nonneg_left hd hp
    have rest := le_fold (p := p * d + i) hds his (by omega)
    exact Int.le_trans (by omega) rest

/-- The row-major position of indices, whether or not they lie inside their extents. -/
theorem isInt_flatten_of_fits {xs es : List Exp} {ds is : List Int} (hd : List.Forall₂ (IsInt σ) xs ds)
    (hi : List.Forall₂ (IsInt σ) es is) (hds : ∀ d ∈ ds, 0 < d) (his : ∀ i ∈ is, 0 ≤ i)
    (hfits : Fits (rowMajor ds is)) :
    IsInt σ (.flatten xs es) (rowMajor ds is) := by
  have fold : ∀ {ds is : List Int} {xs es : List Exp} {x : Exp} {p : Int}, List.Forall₂ (IsInt σ) xs ds →
      List.Forall₂ (IsInt σ) es is → (∀ d ∈ ds, 0 < d) → (∀ i ∈ is, 0 ≤ i) → IsInt σ x p → 0 ≤ p →
      Fits ((ds.zip is).foldl (fun p e => p * e.1 + e.2) p) →
        IsInt σ ((xs.zip es).foldl (fun position e => position * e.1 + e.2) x)
          ((ds.zip is).foldl (fun p e => p * e.1 + e.2) p) := by
    intro ds is xs es x p hd
    induction hd generalizing is es x p with
    | nil => exact fun _ _ _ hx _ _ => hx
    | @cons y d xs ds hy hrest ih =>
      rintro (_ | ⟨hi, his⟩) hds hnonneg hx hp hfits
      · exact hx
      obtain ⟨hd, hds⟩ := List.forall_mem_cons.mp hds
      obtain ⟨hi', hnonneg⟩ := List.forall_mem_cons.mp hnonneg
      rw [List.zip_cons_cons, List.foldl_cons] at hfits ⊢
      have hmul : 0 ≤ p * d := Int.mul_nonneg hp (Int.le_of_lt hd)
      -- The sum is bounded by the position, and the product by the sum.
      have hle := le_fold hds hnonneg (Int.add_nonneg hmul hi')
      have hsum : Fits (p * d + _) := ⟨by omega, Int.le_trans hle hfits.2⟩
      exact ih his hds hnonneg ((hx.mul hy ⟨by omega, by have := hsum.2; omega⟩).add hi hsum)
        (Int.add_nonneg hmul hi') hfits
  exact fold hd hi hds his (IsInt.int 0) (Int.le_refl 0) hfits

/-- The row-major position of indices inside their extents. -/
theorem isInt_flatten {xs es : List Exp} {ds is : List Int} (hd : List.Forall₂ (IsInt σ) xs ds)
    (hi : List.Forall₂ (IsInt σ) es is) (hin : Inside ds is) (hfits : Fits ds.prod) :
    IsInt σ (.flatten xs es) (rowMajor ds is) := by
  have bounds : (∀ d ∈ ds, 0 < d) ∧ ∀ i ∈ is, 0 ≤ i := by
    clear hd hi hfits
    induction hin with
    | nil => exact ⟨by simp, by simp⟩
    | cons hdi _ ih =>
      exact ⟨List.forall_mem_cons.mpr ⟨Int.lt_of_le_of_lt hdi.1 hdi.2, ih.1⟩, List.forall_mem_cons.mpr ⟨hdi.1, ih.2⟩⟩
  have hposition := hin.rowMajor_bounds
  refine isInt_flatten_of_fits hd hi bounds.1 bounds.2 ?_
  unfold Fits at *
  omega

/-- The indices are tested one after another, up to the first one outside. -/
theorem isBool_indicesInBounds {xs es : List Exp} {ds is : List Int} (hd : List.Forall₂ (IsInt σ) xs ds)
    (hi : List.Forall₂ (IsInt σ) es is) (hlength : ds.length = is.length) :
    IsBool σ (indicesInBounds xs es) (decide (Inside ds is)) := by
  have fold : ∀ {ds is : List Int} {xs es : List Exp} {x : Exp} {b : Bool}, List.Forall₂ (IsInt σ) xs ds →
      List.Forall₂ (IsInt σ) es is → ds.length = is.length → IsBool σ x b →
      IsBool σ (((xs.zip es).map fun e => ((Exp.int 0).le e.2).both (e.2.lt e.1)).foldl Exp.both x)
        (b && decide (Inside ds is)) := by
    intro ds is xs es x b hd
    induction hd generalizing is es x b with
    | nil =>
      rintro (_ | _) hlength hx
      · simpa [Inside] using hx
      · cases hlength
    | @cons y d xs ds hy _ ih =>
      rintro (_ | ⟨he, hes⟩) hlength hx
      · cases hlength
      · rename_i e i es is
        have first : IsBool σ (((Exp.int 0).le e).both (e.lt y)) (decide (0 ≤ i) && decide (i < d)) :=
          (IsBool.le (IsInt.int 0) he).both fun _ => IsBool.lt he hy
        have := ih hes (Nat.succ.inj hlength) (hx.both fun _ => first)
        rw [List.zip_cons_cons, List.map_cons, List.foldl_cons]
        rwa [show (b && decide (Inside (d :: ds) (i :: is))) =
          ((b && (decide (0 ≤ i) && decide (i < d))) && decide (Inside ds is)) by
            rw [Bool.eq_iff_iff]
            simp [inside_cons, and_assoc]]
  have := fold hd hi hlength (IsBool.bool true)
  rwa [Bool.true_and] at this

/-- Expressions with values have just these. -/
theorem isInts_unique {σ : Scope} : ∀ {xs : List Exp} {is js : List Nat}, List.Forall₂ (IsInt σ) xs (ints is) →
    List.Forall₂ (IsInt σ) xs (ints js) → is = js
  | [], [], [], _, _ => rfl
  | _ :: _, i :: is, j :: js, hi, hj => by
    obtain ⟨hi, his⟩ := List.forall₂_cons.mp hi
    obtain ⟨hj, hjs⟩ := List.forall₂_cons.mp hj
    rw [Int.ofNat_inj.mp (hi.unique hj), isInts_unique his hjs]
  | [], _ :: _, _, hi, _ => nomatch hi
  | _ :: _, [], _, hi, _ => nomatch hi
  | [], [], _ :: _, _, hj => nomatch hj
  | _ :: _, _ :: _, [], _, hj => nomatch hj

end Exp

/-! ### Code -/

/-- Integers as values. -/
def indexValues (is : List Nat) : List Value := is.map fun i => .i64 (Int64.ofNat i)

/-- Variables of different names have the integers that they have got. -/
theorem isInts_sets {σ : Scope} {names : List Ident} {is : List Nat} (hnd : names.Nodup)
    (hlength : names.length = is.length) (hfits : ∀ i ∈ is, Fits (i : Nat)) :
    List.Forall₂ (Exp.IsInt (σ.sets (names.zip (indexValues is)))) (names.map .var) (ints is) := by
  induction names generalizing σ is with
  | nil =>
    cases is with
    | nil => exact .nil
    | cons i is => cases hlength
  | cons name names ih =>
    cases is with
    | nil => cases hlength
    | cons i is =>
      obtain ⟨hname, hnd⟩ := List.nodup_cons.mp hnd
      have htail : ∀ e ∈ names.zip (indexValues is), e.1 ≠ name := fun e he h => hname (h ▸ (List.of_mem_zip he).1)
      refine .cons ?_ (ih hnd (Nat.succ.inj hlength) fun j hj => hfits j (List.mem_cons_of_mem i hj))
      have hvalue : σ.sets ((name :: names).zip (indexValues (i :: is))) name = some (.i64 (Int64.ofNat i)) :=
        (Scope.sets_of_not_mem htail).trans Scope.set_self
      have := Exp.IsInt.var hvalue
      rwa [toInt_ofNat_of_fits (hfits i List.mem_cons_self)] at this

/-- The inner indices of a point do not depend on where the outer one starts. -/
theorem coords_mod (d : Nat) (ds : List Nat) (f : Nat) :
    coords (d :: ds) (f % (d * ds.prod)) = f / ds.prod % d :: coords ds (f % ds.prod) := by
  rw [coords, Nat.mod_mul_left_div_self, Nat.mod_mul_left_mod]

namespace Stmt
open Exp

/-- The indices after the first one. -/
def innerExps (flat : Exp) : List (Ident × Exp) → List Exp
  | [] => []
  | (_, extent) :: dims => flat / .product (dims.map (·.2)) % extent :: innerExps flat dims

/-- The indices of a position. -/
def indexExps (flat : Exp) : List (Ident × Exp) → List Exp
  | [] => []
  | _ :: dims => flat / .product (dims.map (·.2)) :: innerExps flat dims

theorem innerIndices_eq (flat : Exp) : ∀ dims : List (Ident × Exp),
    innerIndices flat dims = ((dims.map (·.1)).zip (innerExps flat dims)).map fun (name, x) => .declareInit name .i64 x
  | [] => rfl
  | _ :: dims => congrArg (_ :: ·) (innerIndices_eq flat dims)

theorem unflatten_eq (dims : List (Ident × Exp)) (flat : Exp) :
    unflatten dims flat =
      .block (((dims.map (·.1)).zip (indexExps flat dims)).map fun (name, x) => .declareInit name .i64 x) := by
  cases dims with
  | nil => rfl
  | cons d dims =>
    rw [unflatten, innerIndices_eq]
    rfl

/-- They are the coordinates of the position. The first extent has no part in them. -/
theorem isInts_indexExps {σ : Scope} {flat : Exp} {f : Nat} (hflat : IsInt σ flat f) {dims : List (Ident × Exp)}
    {ds : List Nat} (hdims : List.Forall₂ (fun d (n : Nat) => IsInt σ d.2 n) dims ds) (hpos : ∀ n ∈ ds.tail, 0 < n)
    (hfits : Fits ds.tail.prod) :
    List.Forall₂ (IsInt σ) (indexExps flat dims) (ints (coords ds f)) := by
  have inner : ∀ {dims : List (Ident × Exp)} {ds : List Nat}, List.Forall₂ (fun d (n : Nat) => IsInt σ d.2 n) dims ds →
      (∀ n ∈ ds, 0 < n) → Fits ds.prod →
        List.Forall₂ (IsInt σ) (innerExps flat dims) (ints (coords ds (f % ds.prod))) := by
    intro dims ds hdims
    induction hdims with
    | nil => exact fun _ _ => .nil
    | @cons d n dims ds hd hds ih =>
      intro hpos hfits
      obtain ⟨hn, hpos'⟩ := List.forall_mem_cons.mp hpos
      have hfits' : Fits ds.prod := fits_prod_tail hpos hfits
      rw [List.prod_cons, coords_mod]
      refine .cons ?_ (ih hpos' hfits')
      have := (hflat.div (isInt_product (List.forall₂_map_left_iff.mpr hds) hfits') (Int.natCast_nonneg f)
        (Int.natCast_pos.mpr (prod_pos_of_forall hpos'))).mod hd
          (Int.ediv_nonneg (Int.natCast_nonneg _) (Int.natCast_nonneg _)) (by omega)
      exact_mod_cast this
  cases hdims with
  | nil => exact .nil
  | @cons d n dims ds hd hds =>
    refine .cons ?_ (inner hds hpos hfits)
    have := hflat.div (isInt_product (List.forall₂_map_left_iff.mpr hds) hfits) (Int.natCast_nonneg f)
      (Int.natCast_pos.mpr (prod_pos_of_forall hpos))
    exact_mod_cast this

end Stmt

namespace Solo
open Exp
variable {E : Solo} {σ τ : Scope} {Q : Claim} {th : Thread} {ws : List Write} {rest : List Stmt}

/-- A variable gets a value, perhaps not its first one. Its expression has the value without it. -/
theorem ensures_declareInit_apart {name : Ident} {type : ScalarType} {x : Exp} {v : Value} (hσ : σ.Le (E.scope th))
    (hτ : τ.Le (E.scope th)) (hname : τ name = none) (hx : x.eval τ = .ok v) (hv : v.type = type)
    (h : ∀ th', (σ.set name v).Le (E.scope th') → τ.Le (E.scope th') → th'.arrays = th.arrays → Q th' ws) :
    E.Ensures (.declareInit name type x) Q th ws := by
  rw [Stmt.declareInit, ensures_seq, ensuresAll_cons, ensuresAll_singleton]
  have hdeclared : (th.bind name (.zero type)).scalars[name]? = some (.zero type) := by simp [Thread.bind]
  refine ensures_declare (ensures_set (v := v) ?_ hdeclared (by simp [hv]) ?_)
  · exact eval_mono (Thread.le_scope_bind hτ hname) hx
  · rw [Thread.bind_bind]
    exact h _ (Thread.set_le_scope_bind hσ) (Thread.le_scope_bind hτ hname) rfl

/-- Variables get integers, one after another. Their expressions have the values without them. -/
theorem ensures_declareNats : ∀ {names : List Ident} {xs : List Exp} {is : List Nat} {σ : Scope} {th : Thread},
    σ.Le (E.scope th) → τ.Le (E.scope th) → List.Forall₂ (IsInt τ) xs (ints is) → (∀ x ∈ names, τ x = none) →
      (∀ th', (σ.sets (names.zip (indexValues is))).Le (E.scope th') → τ.Le (E.scope th') → th'.arrays = th.arrays →
        E.EnsuresAll rest Q th' ws) →
      E.EnsuresAll (((names.zip xs).map fun (name, x) => .declareInit name .i64 x) ++ rest) Q th ws
  | [], _, _, _, th, hσ, hτ, _, _, h => h th hσ hτ rfl
  | _ :: _, [], [], _, th, hσ, hτ, _, _, h => h th hσ hτ rfl
  | name :: names, x :: xs, i :: is, σ, th, hσ, hτ, hx, hnew, h => by
    obtain ⟨hx, hxs⟩ := List.forall₂_cons.mp hx
    rw [List.zip_cons_cons, List.map_cons, List.cons_append, ensuresAll_cons]
    refine ensures_declareInit_apart hσ hτ (hnew name List.mem_cons_self) hx.eval_nat rfl fun th' hσ' hτ' ha => ?_
    exact ensures_declareNats hσ' hτ' hxs (fun y hy => hnew y (List.mem_cons_of_mem name hy))
      fun th'' hσ'' hτ'' ha' => h th'' hσ'' hτ'' (ha'.trans ha)
  | _ :: _, [], _ :: _, _, _, _, _, hx, _, _ => nomatch hx
  | _ :: _, _ :: _, [], _, _, _, _, hx, _, _ => nomatch hx

/-- The indices of a point get their values. The first extent has no part in them. -/
theorem ensures_unflatten {flat : Exp} {f : Nat} {dims : List (Ident × Exp)} {ds : List Nat} (hσ : σ.Le (E.scope th))
    (hτ : τ.Le (E.scope th)) (hflat : IsInt τ flat f)
    (hextents : List.Forall₂ (fun d (n : Nat) => IsInt τ d.2 n) dims ds) (hpos : ∀ n ∈ ds.tail, 0 < n)
    (hfits : Fits ds.tail.prod) (hnew : ∀ d ∈ dims, τ d.1 = none)
    (h : ∀ th', (σ.sets ((dims.map (·.1)).zip (indexValues (coords ds f)))).Le (E.scope th') → τ.Le (E.scope th') →
      th'.arrays = th.arrays → Q th' ws) : E.Ensures (.unflatten dims flat) Q th ws := by
  rw [Stmt.unflatten_eq, ensures_block, ← List.append_nil (List.map _ _)]
  refine ensures_declareNats hσ hτ (Stmt.isInts_indexExps hflat hextents hpos hfits) (List.forall_mem_map.mpr hnew)
    fun th' hσ' hτ' ha => ?_
  rw [ensuresAll_nil]
  exact h th' hσ' hτ' ha

end Solo
end SegKernel
