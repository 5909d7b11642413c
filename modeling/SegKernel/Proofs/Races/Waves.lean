import SegKernel.Collective.Reduction
import SegKernel.Proofs.Races.Places

/-! The threads of a group in waves, and what the code of a collective operation knows of them. -/

namespace SegKernel

theorem add_le_of_dvd {d a b : Nat} (ha : d ∣ a) (hb : d ∣ b) (h : a < b) : a + d ≤ b := by
  have := Nat.le_of_dvd (by omega) (Nat.dvd_sub hb ha)
  omega

namespace Squad

/-- The group has the threads that its context says, in waves of a power of two. -/
structure Regular (G : Squad) : Prop where
  size_eq : G.size = G.ctx.groupSize.toInt.toNat
  wave : ∃ m, G.ctx.wave.toInt = (2 ^ m : Nat)

variable {G : Squad}

/-- The number of threads of a wave. -/
def width (G : Squad) : Nat := G.ctx.wave.toInt.toNat

theorem Regular.size_lt (hG : G.Regular) : G.size < 2 ^ 63 := by
  have := (fits_toInt G.ctx.groupSize).2
  rw [hG.size_eq]
  omega

theorem Regular.toInt_groupSize (hG : G.Regular) : G.ctx.groupSize.toInt = G.size := by
  have hsize := hG.size_eq
  have hpos := G.pos
  omega

theorem Regular.width_eq (hG : G.Regular) : ∃ m, m ≤ 62 ∧ G.width = 2 ^ m ∧ G.ctx.wave.toInt = (2 ^ m : Nat) := by
  obtain ⟨m, hm⟩ := hG.wave
  have hlt : 2 ^ m < 2 ^ 63 := by
    have := (fits_toInt G.ctx.wave).2
    omega
  have := (Nat.pow_lt_pow_iff_right (by omega : 1 < 2)).mp hlt
  exact ⟨m, by omega, by rw [width, hm, Int.toNat_natCast], hm⟩

theorem Regular.toInt_wave (hG : G.Regular) : G.ctx.wave.toInt = G.width := by
  obtain ⟨m, -, hw, hm⟩ := hG.width_eq
  rw [hm, hw]

theorem Regular.width_pos (hG : G.Regular) : 0 < G.width := by
  obtain ⟨m, -, hm, -⟩ := hG.width_eq
  rw [hm]
  exact Nat.pow_pos (by omega)

/-- The number of a thread as the device counts. -/
theorem toInt_ofNat {n : Nat} (h : n < 2 ^ 63) : (Int64.ofNat n).toInt = n :=
  toInt_ofNat_of_fits (by unfold Fits; omega)

theorem Regular.wave_eq (hG : G.Regular) : G.ctx.wave = Int64.ofNat G.width := by
  have hfits := (fits_toInt G.ctx.wave).2
  have hwave := hG.toInt_wave
  rw [← Int64.toInt_inj, toInt_ofNat (by omega), hwave]

/-- The device divides as natural numbers do. -/
theorem ofNat_div {t d : Nat} (ht : t < 2 ^ 63) (hd : d < 2 ^ 63) :
    Int64.ofNat t / Int64.ofNat d = Int64.ofNat (t / d) := by
  have hle : t / d ≤ t := Nat.div_le_self t d
  have hquotient : (Int64.ofNat t).toInt.tdiv (Int64.ofNat d).toInt = (t / d : Nat) := by
    rw [toInt_ofNat ht, toInt_ofNat hd, Int.tdiv_eq_ediv_of_nonneg (by omega), Int.natCast_ediv]
  have hlt : t / d < 2 ^ 63 := by omega
  have hfits : Fits ((t / d : Nat) : Int) := by
    unfold Fits
    generalize t / d = q at hlt
    omega
  rw [← Int64.toInt_inj, toInt_ofNat hlt, toInt_div_of_fits (hquotient ▸ hfits), hquotient]

theorem ofNat_sub_one {t : Nat} (ht : 0 < t) : Int64.ofNat t - 1 = Int64.ofNat (t - 1) := (Int64.ofNat_sub t 1 ht).symm

theorem ofNat_sub_div_mul (t d : Nat) : Int64.ofNat t - Int64.ofNat (t / d) * Int64.ofNat d = Int64.ofNat (t % d) := by
  have hsplit : Int64.ofNat t = Int64.ofNat (t / d) * Int64.ofNat d + Int64.ofNat (t % d) := by
    rw [← Int64.ofNat_mul, ← Int64.ofNat_add, Nat.div_add_mod']
  rw [hsplit]
  generalize Int64.ofNat (t / d) * Int64.ofNat d = a
  rw [Int64.add_comm, Int64.add_sub_cancel]

theorem Regular.waveOf_eq (hG : G.Regular) {t : Nat} (ht : t < 2 ^ 63) :
    Run.waveOf G.ctx t = Int64.ofNat (t / G.width) := by
  have hfits := (fits_toInt G.ctx.wave).2
  have hwave := hG.toInt_wave
  rw [Run.waveOf, hG.wave_eq, ofNat_div ht (by omega)]

/-- Threads are in one wave if they are in one stretch of its width. -/
theorem Regular.waveOf_congr (hG : G.Regular) {t t' : Nat} (ht : t < 2 ^ 63) (ht' : t' < 2 ^ 63)
    (h : t / G.width = t' / G.width) : Run.waveOf G.ctx t = Run.waveOf G.ctx t' := by
  rw [hG.waveOf_eq ht, hG.waveOf_eq ht', h]

end Squad

/-- All elements below a number lie in a number of regions. -/
def Site.Fits (place : Site) (regions size : Nat) : Prop :=
  ∀ r e : Int64, 0 ≤ r.toInt → r.toInt < regions → 0 ≤ e.toInt → e.toInt < size → place.Valid r e

namespace Collective
open Watch Squad

variable {c : Collective} {G : Squad}

/-- The elements below the group size. -/
def Within (G : Squad) (e : Int64) : Prop := 0 ≤ e.toInt ∧ e.toInt < G.size

theorem within_ofNat {t : Nat} (ht : t < 2 ^ 63) (hsize : t < G.size) : Within G (Int64.ofNat t) := by
  have := toInt_ofNat ht
  exact ⟨by omega, by omega⟩

/-- What is known when a collective operation starts that takes names from number `n` on. -/
structure Ready (c : Collective) (G : Squad) (τ : Nat → Scope) (n : Nat) (place : Site) : Prop where
  before : ∀ t < G.size, (τ t).Before n
  localId : ∀ t < G.size, c.launch.ltid.eval (τ t) = .ok (.i64 (Int64.ofNat t))
  wave : ∀ t < G.size, c.launch.wave.eval (τ t) = .ok (.i64 G.ctx.wave)
  groupSize : ∀ t < G.size, c.launch.groupSize.eval (τ t) = .ok (.i64 G.ctx.groupSize)
  lies : ∀ t < G.size, c.Lies (τ t) place
  watched : c.Watched G

variable {τ τ' : Nat → Scope} {n m : Nat} {place : Site}

/-- More may be known, if it is not known of names that are new then. -/
theorem Ready.mono (h : c.Ready G τ n place) (hle : ∀ t < G.size, (τ t).Le (τ' t))
    (hbefore : ∀ t < G.size, (τ' t).Before m) : c.Ready G τ' m place where
  before := hbefore
  localId t ht := Exp.eval_mono (hle t ht) (h.localId t ht)
  wave t ht := Exp.eval_mono (hle t ht) (h.wave t ht)
  groupSize t ht := Exp.eval_mono (hle t ht) (h.groupSize t ht)
  lies t ht := (h.lies t ht).mono (hle t ht)
  watched := h.watched

/-- Later names are new all the more. -/
theorem Ready.later (h : c.Ready G τ n place) (hm : n ≤ m) : c.Ready G τ m place :=
  h.mono (fun _ _ => .refl _) fun t ht => (h.before t ht).mono hm

/-- A distance that doubles. -/
theorem double_obeys {W : Watch} {R : W.Rights} {t : Nat} (σ : Scope) (name : Ident) (k : Nat) :
    W.Obeys R t (σ.set name (.i64 (Int64.ofNat (2 ^ k)))) [.set name (.var name * .int 2)]
      (σ.set name (.i64 (Int64.ofNat (2 ^ (k + 1))))) := by
  have hname : (Exp.var name).eval (σ.set name (.i64 (Int64.ofNat (2 ^ k)))) = .ok (.i64 (Int64.ofNat (2 ^ k))) :=
    Exp.eval_var Scope.set_self
  have hmul := Exp.eval_mul hname (Exp.eval_int 2)
  rw [ofNat_pow_mul_two] at hmul
  refine (Obeys.set_of_known hmul).forget ?_
  rw [Scope.set_set]
  exact .refl _

/-! The next new name can be given a value. -/

section Growing
variable {stem : String} {v : Nat → Value} {x : Exp} {R : G.Rights} {t : Nat}

theorem Ready.unknown (h : c.Ready G τ n place) (hstem : stem ∈ uniformStems ++ ownStems ++ arrayStems ++ kernelStems)
    (ht : t < G.size) : τ t (numbered stem n) = none := (h.before t ht).fresh hstem (Nat.le_refl n)

theorem Ready.le_set (h : c.Ready G τ n place) (hstem : stem ∈ uniformStems ++ ownStems ++ arrayStems ++ kernelStems) :
    ∀ t < G.size, (τ t).Le ((τ t).set (numbered stem n) (v t)) := fun _ ht => Scope.le_set (h.unknown hstem ht)

theorem Ready.set (h : c.Ready G τ n place) (hstem : stem ∈ uniformStems ++ ownStems ++ arrayStems ++ kernelStems) :
    c.Ready G (fun t => (τ t).set (numbered stem n) (v t)) (n + 1) place :=
  h.mono (h.le_set hstem) fun t ht => (h.before t ht).set (Nat.le_succ n) (Nat.lt_succ_self n)

theorem Ready.declares (h : c.Ready G τ n place) (hstem : stem ∈ uniformStems ++ ownStems ++ arrayStems ++ kernelStems)
    (type : ScalarType) (hx : ∀ t < G.size, x.eval (τ t) = .ok (v t)) :
    G.Leads (Respected R) τ (.declareInit (numbered stem n) type x) (Respected R)
      fun t => (τ t).set (numbered stem n) (v t) :=
  Squad.leads_of_obeys fun t ht => .declareInit_of_known type (h.unknown hstem ht) (hx t ht)

end Growing

end Collective
end SegKernel
