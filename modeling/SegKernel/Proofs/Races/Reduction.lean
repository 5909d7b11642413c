import SegKernel.Proofs.Races.Waves

/-! Reduction does not race. Inside a wave the partner of a thread belongs to the same wave. Across waves
    a barrier comes before each step, and then each element is touched by the first thread of one wave. -/

namespace SegKernel.Collective
open Watch Squad

variable {c : Collective} {G : Squad} {τ : Nat → Scope} {n : Nat} {place : Site}

/-- The first of a pair has a number with no bits below the second one's. -/
theorem dvd_of_isFirstOfPair {σ : Scope} {id stride : Exp} {a : Nat} {k : Nat} (ha : a < 2 ^ 63)
    (hid : id.eval σ = .ok (.i64 (Int64.ofNat a))) (hstride : stride.eval σ = .ok (.i64 (Int64.ofNat (2 ^ k))))
    (h : May σ (isFirstOfPair id stride)) : 2 ^ (k + 1) ∣ a := by
  have hmask : (Exp.int 2 * stride - Exp.int 1).eval σ = .ok (.i64 (2 * Int64.ofNat (2 ^ k) - 1)) :=
    Exp.eval_sub (Exp.eval_mul rfl hstride) rfl
  have hzero := h.equals (Exp.eval_bitAnd hid hmask) (Exp.eval_int 0)
  have hnat := toInt_ofNat ha
  have := dvd_of_and_mask (a := Int64.ofNat a) (by omega) hzero
  rwa [hnat, Int.toNat_natCast] at this

/-- The thread that has an element as its own. -/
def ownerOf (e : Int64) : Nat := e.toInt.toNat

theorem ownerOf_ofNat {t : Nat} (ht : t < 2 ^ 63) : ownerOf (Int64.ofNat t) = t := by
  rw [ownerOf, toInt_ofNat ht, Int.toNat_natCast]

/-- Each wave may do what it wants with its elements. -/
def waveRights (G : Squad) (place : Site) (hfits : place.Fits 1 G.size) : CellRights G place where
  may t r e _ := r = 0 ∧ Within G e ∧ Run.waveOf G.ctx (ownerOf e) = Run.waveOf G.ctx t
  valid := by
    rintro t r e - ⟨rfl, he, -⟩
    exact hfits 0 e (by decide) (by decide) he.1 he.2
  apart := by
    rintro t t' r e _ - - ⟨-, -, h⟩ ⟨-, -, h'⟩
    rw [← h, ← h']

/-- Every `stride`-th thread may write its element, and read the one in the middle to the next such thread. -/
def strideRights (G : Squad) (place : Site) (hfits : place.Fits 1 G.size) (half : Nat) (hhalf : 0 < half) :
    CellRights G place where
  may t r e isWrite := r = 0 ∧ Within G e ∧ 2 * half ∣ t ∧ (e.toInt = t ∨ isWrite = false ∧ e.toInt = (t + half : Nat))
  valid := by
    rintro t r e - ⟨rfl, he, -⟩
    exact hfits 0 e (by decide) (by decide) he.1 he.2
  apart := by
    rintro t t' r e isWrite - - ⟨-, -, hdvd, hown⟩ ⟨-, -, hdvd', hother⟩
    have hown : e.toInt = t := by simpa using hown
    rcases hother with hother | ⟨-, hother⟩
    · rw [show t' = t by omega]
    · have hdiff : 2 * half ∣ half := by
        have := Nat.dvd_sub hdvd hdvd'
        rwa [show t - t' = half by omega] at this
      have := Nat.le_of_dvd hhalf hdiff
      omega

/-- What the threads may do in the step across waves at a distance of `2 ^ k` waves. Where the numbers
    leave the range of 64 bits, only the first thread takes part. -/
def crossRights (G : Squad) (hG : G.Regular) (place : Site) (hfits : place.Fits 1 G.size) (k : Nat) : G.Rights :=
  if 2 ^ (k + 1) * G.width < 2 ^ 63 then
    (strideRights G place hfits (2 ^ k * G.width) (Nat.mul_pos (Nat.pow_pos (by omega)) hG.width_pos)).rights
  else soloRights G 0

/-- The variables of the reduction, as each thread knows them. -/
structure WaveVars (G : Squad) (τ : Nat → Scope) (wave waveId inWaveId : Ident) : Prop where
  wave : ∀ t < G.size, τ t wave = some (.i64 G.ctx.wave)
  waveId : ∀ t < G.size, τ t waveId = some (.i64 (Int64.ofNat (t / G.width)))
  inWaveId : ∀ t < G.size, τ t inWaveId = some (.i64 (Int64.ofNat (t % G.width)))

theorem WaveVars.mono {τ' : Nat → Scope} {wave waveId inWaveId : Ident} (h : WaveVars G τ wave waveId inWaveId)
    (hle : ∀ t < G.size, (τ t).Le (τ' t)) : WaveVars G τ' wave waveId inWaveId where
  wave t ht := hle t ht _ _ (h.wave t ht)
  waveId t ht := hle t ht _ _ (h.waveId t ht)
  inWaveId t ht := hle t ht _ _ (h.inWaveId t ht)

/-- The partner of a thread inside its wave. -/
theorem partner_in_wave (hG : G.Regular) {t k : Nat} (ht : t < G.size) (hk : 2 ^ k < G.width)
    (hdvd : 2 ^ (k + 1) ∣ t % G.width) : t + 2 ^ k < 2 ^ 63 ∧ (t + 2 ^ k) / G.width = t / G.width := by
  obtain ⟨m, hm, hw, -⟩ := hG.width_eq
  have hsize := hG.size_lt
  rw [hw] at hk hdvd ⊢
  have hkm : k < m := (Nat.pow_lt_pow_iff_right (by omega : 1 < 2)).mp hk
  have hpos : 0 < 2 ^ m := Nat.pow_pos (by omega)
  have hin : t % 2 ^ m + 2 ^ (k + 1) ≤ 2 ^ m :=
    add_le_of_dvd hdvd (Nat.pow_dvd_pow 2 (by omega)) (Nat.mod_lt t hpos)
  have hpow : 2 ^ (k + 1) = 2 * 2 ^ k := by rw [Nat.pow_succ, Nat.mul_comm]
  have hsplit := Nat.div_add_mod t (2 ^ m)
  have hblock : 2 ^ m * (t / 2 ^ m) + 2 ^ m ≤ 2 ^ 63 :=
    add_le_of_dvd (Nat.dvd_mul_right _ _) (Nat.pow_dvd_pow 2 (by omega)) (by omega)
  have hk0 : 0 < 2 ^ k := Nat.pow_pos (by omega)
  refine ⟨by omega, ?_⟩
  have hsum : t + 2 ^ k = 2 ^ m * (t / 2 ^ m) + (t % 2 ^ m + 2 ^ k) := by omega
  have hrest : (t % 2 ^ m + 2 ^ k) / 2 ^ m = 0 := Nat.div_eq_of_lt (by omega)
  rw [hsum, Nat.mul_add_div hpos, hrest, Nat.add_zero]

/-- Code that reads two elements and writes the first one of them. -/
def Steps (c : Collective) (n : Nat) (left right : Cell) (code : Stmt) : Prop :=
  ∀ (W : Watch) (R : W.Rights) t σ, σ.Before n → c.LanesKnown σ → c.GrantsCell W R t σ left false →
    c.GrantsCell W R t σ right false → c.GrantsCell W R t σ left true → W.Obeys R t σ [code] σ

/-- The steps inside a wave. -/
theorem inWave_leads (hG : G.Regular) (hfits : place.Fits 1 G.size) {m : Nat} {wave waveId inWaveId offset : Ident}
    {hasPartner : Exp} {step : Stmt} (hready : ∀ v, c.Ready G (fun t => (τ t).set offset v) m place)
    (hvars : WaveVars G τ wave waveId inWaveId) (hoffset : ∀ t < G.size, τ t offset = none)
    (hpartner : ∀ t < G.size, ∀ o : Nat, t + o < 2 ^ 63 →
      May ((τ t).set offset (.i64 (Int64.ofNat o))) hasPartner → t + o < G.size)
    (hstep : c.Steps m { element := c.launch.ltid } { element := c.launch.ltid + .var offset } step) :
    G.Leads (Respected (waveRights G place hfits).rights) (fun t => (τ t).set offset (.i64 1))
      (.repeatWhile ((Exp.var offset).lt (.var wave)) <| .block [
        .when (hasPartner.both (isFirstOfPair (.var inWaveId) (.var offset))) step,
        .set offset (.var offset * .int 2)])
      (Respected (waveRights G place hfits).rights) τ := by
  obtain ⟨e, he, hwidth, hwave⟩ := hG.width_eq
  have hsize := hG.size_lt
  let σ : Nat → Nat → Scope := fun k t => (τ t).set offset (.i64 (Int64.ofNat (2 ^ k)))
  have known : ∀ k t x v, t < G.size → τ t x = some v → σ k t x = some v := by
    intro k t x v ht hx
    exact Scope.le_set (hoffset t ht) x v hx
  have hoff : ∀ k t, (Exp.var offset).eval (σ k t) = .ok (.i64 (Int64.ofNat (2 ^ k))) := fun k t =>
    Exp.eval_var Scope.set_self
  -- The distance doubles until it reaches the width of a wave; a thread meets only its own wave.
  refine leads_repeatWhile (L := fun _ => Respected (waveRights G place hfits).rights) (τ := σ)
    (p := fun k => 2 ^ k ≤ G.width)
    (b := fun k => decide (2 ^ k < G.width)) ?_ ?_ ?_ ?_
  · intro k hk t ht
    have hlt : 2 ^ k < 2 ^ 63 := by
      have : 2 ^ e < 2 ^ 63 := Nat.pow_lt_pow_right (by omega) (by omega)
      omega
    have htest := Exp.IsBool.lt (Exp.isInt_of_eval (hoff k t))
      (Exp.isInt_of_eval (Exp.eval_var (known k t _ _ ht (hvars.wave t ht))))
    rw [toInt_ofNat hlt, hG.toInt_wave] at htest
    simpa only [Int.ofNat_lt] using htest
  · intro k hk hlt
    have hlt : 2 ^ k < G.width := of_decide_eq_true hlt
    have hnext : 2 ^ (k + 1) ≤ G.width := by
      rw [hwidth] at hlt ⊢
      exact Nat.pow_le_pow_right (by omega) ((Nat.pow_lt_pow_iff_right (by omega : 1 < 2)).mp hlt)
    refine ⟨hnext, leads_of_obeys fun t ht => ?_⟩
    have own : (Exp.eval (σ k t) c.launch.ltid) = .ok (.i64 (Int64.ofNat t)) := (hready _).localId t ht
    refine .block (.cons (.when fun hmay => ?_) ?_)
    · obtain ⟨hhas, hfirst⟩ := hmay.both
      have hmod : t % G.width < 2 ^ 63 := by
        have := Nat.mod_le t G.width
        omega
      have hdvd := dvd_of_isFirstOfPair hmod (Exp.eval_var (known k t _ _ ht (hvars.inWaveId t ht))) (hoff k t) hfirst
      obtain ⟨hfit, hsame⟩ := partner_in_wave hG ht hlt hdvd
      have hpsize := hpartner t ht (2 ^ k) hfit hhas
      have partner : (Exp.eval (σ k t) (c.launch.ltid + .var offset)) = .ok (.i64 (Int64.ofNat (t + 2 ^ k))) := by
        rw [Int64.ofNat_add]
        exact Exp.eval_add own (hoff k t)
      have lies := (hready (.i64 (Int64.ofNat (2 ^ k)))).lies t ht
      have watched := (hready (.i64 (Int64.ofNat (2 ^ k)))).watched
      have mayOwn : ∀ b, (waveRights G place hfits).may t 0 (Int64.ofNat t) b := fun b =>
        ⟨rfl, within_ofNat (by omega) ht, by rw [ownerOf_ofNat (by omega)]⟩
      refine hstep _ _ t _ ((hready _).before t ht) lies.lanesKnown
        (lies.grantsCell_of_may watched own (mayOwn false)) (lies.grantsCell_of_may watched partner ⟨rfl, ?_, ?_⟩)
        (lies.grantsCell_of_may watched own (mayOwn true))
      · exact within_ofNat hfit hpsize
      · rw [ownerOf_ofNat hfit]
        exact hG.waveOf_congr hfit (by omega) hsame
    · exact double_obeys (τ t) offset k
  · intro k _ _
    exact ⟨fun _ hl => hl, fun t ht => Scope.le_set (hoffset t ht)⟩
  · rw [Nat.pow_zero]
    exact hG.width_pos

/-- The threads that take part in a step across waves, and their partners. -/
theorem crossRights_grants (hG : G.Regular) (hfits : place.Fits 1 G.size) {σ : Scope} {k t : Nat} {partner : Exp}
    (ht : t < G.size) (hdvd : 2 ^ (k + 1) * G.width ∣ t) (hlies : c.Lies σ place) (hwatched : c.Watched G)
    (hown : c.launch.ltid.eval σ = .ok (.i64 (Int64.ofNat t)))
    (hpartner : partner.eval σ = .ok (.i64 (Int64.ofNat (t + 2 ^ k * G.width))))
    (hsize : t + 2 ^ k * G.width < 2 ^ 63 → t + 2 ^ k * G.width < G.size) :
    (∀ b, c.GrantsCell G.toWatch (crossRights G hG place hfits k) t σ { element := c.launch.ltid } b) ∧
      c.GrantsCell G.toWatch (crossRights G hG place hfits k) t σ { element := partner } false := by
  have htsize := hG.size_lt
  unfold crossRights
  split
  · rename_i hsmall
    obtain ⟨m, -, hwidth, -⟩ := hG.width_eq
    have hstride : 2 ^ (k + 1) * G.width = 2 * (2 ^ k * G.width) := by
      rw [Nat.pow_succ, Nat.mul_comm (2 ^ k) 2, Nat.mul_assoc]
    have htop : 2 ^ (k + 1) * G.width ∣ 2 ^ 63 := by
      rw [hwidth, ← Nat.pow_add] at hsmall ⊢
      exact Nat.pow_dvd_pow 2 (Nat.le_of_lt ((Nat.pow_lt_pow_iff_right (by omega : 1 < 2)).mp hsmall))
    have hroom := add_le_of_dvd hdvd htop (by omega : t < 2 ^ 63)
    have hpos : 0 < 2 ^ k * G.width := Nat.mul_pos (Nat.pow_pos (by omega)) hG.width_pos
    have hfit : t + 2 ^ k * G.width < 2 ^ 63 := by omega
    refine ⟨fun b => hlies.grantsCell_of_may hwatched hown ?_, hlies.grantsCell_of_may hwatched hpartner ?_⟩
    · exact ⟨rfl, within_ofNat (by omega) ht, hstride ▸ hdvd, Or.inl (toInt_ofNat (by omega))⟩
    · exact ⟨rfl, within_ofNat hfit (hsize hfit), hstride ▸ hdvd, Or.inr ⟨rfl, toInt_ofNat hfit⟩⟩
  · rename_i hlarge
    have hzero : t = 0 := Nat.eq_zero_of_dvd_of_lt hdvd (by omega)
    subst hzero
    exact ⟨fun b => hlies.grantsCell_solo hwatched hown, hlies.grantsCell_solo hwatched hpartner⟩

/-- The steps across waves. -/
theorem crossWave_leads (hG : G.Regular) (hfits : place.Fits 1 G.size) (fence : Fence) {m : Nat}
    {wave waveId inWaveId numWaves offset skip : Ident} {hasPartner : Exp} {step : Stmt} {nw : Int64}
    (hready : ∀ v w, c.Ready G (fun t => ((τ t).set skip v).set offset w) m place)
    (hvars : WaveVars G τ wave waveId inWaveId) (hnum : ∀ t < G.size, τ t numWaves = some (.i64 nw))
    (hoffset : ∀ t < G.size, τ t offset = none) (hskip : ∀ t < G.size, τ t skip = none) (hne : skip ≠ offset)
    (hpartner : ∀ t < G.size, ∀ o : Nat, ∀ v, t + o < 2 ^ 63 →
      May (((τ t).set skip v).set offset (.i64 (Int64.ofNat o))) hasPartner → t + o < G.size)
    (hstep : c.Steps m { element := c.launch.ltid } { element := c.launch.ltid + .var offset } step) :
    G.Leads G.Sound (fun t => (τ t).set skip (.i64 1))
      (.repeatWhile ((Exp.var skip).lt (.var numWaves)) <| .block [
        .barrier fence,
        .set offset (.var skip * .var wave),
        .when ((hasPartner.both ((Exp.var inWaveId).equals (.int 0))).both (isFirstOfPair (.var waveId) (.var skip)))
          step,
        .set skip (.var skip * .int 2)])
      G.Sound τ := by
  have hsize := hG.size_lt
  let σ : Nat → Nat → Scope := fun k t => (τ t).set skip (.i64 (Int64.ofNat (2 ^ k)))
  let o : Nat → Int64 := fun k => Int64.ofNat (2 ^ k * G.width)
  have known : ∀ k t x v, t < G.size → τ t x = some v → σ k t x = some v := fun k t x v ht =>
    Scope.le_set (hskip t ht) x v
  have hunknown : ∀ k t, t < G.size → σ k t offset = none := fun k t ht => by
    show ((τ t).set skip _) offset = none
    rw [Scope.set_of_ne hne]
    exact hoffset t ht
  have hskipVar : ∀ k t, (Exp.var skip).eval (σ k t) = .ok (.i64 (Int64.ofNat (2 ^ k))) := fun k t =>
    Exp.eval_var Scope.set_self
  refine leads_repeatWhile (L := fun _ => G.Sound) (τ := σ) (p := fun _ => True)
    (b := fun k => decide ((Int64.ofNat (2 ^ k)).toInt < nw.toInt)) ?_ ?_ ?_ trivial
  · intro k _ t ht
    exact .lt (Exp.isInt_of_eval (hskipVar k t)) (Exp.isInt_of_eval (Exp.eval_var (known k t _ _ ht (hnum t ht))))
  · intro k _ _
    refine ⟨trivial, LeadsAll.block ?_⟩
    have barrier : G.Leads G.Sound (σ k) (.barrier fence) (Respected (crossRights G hG place hfits k)) (σ k) :=
      leads_barrier fence fun _ hl => hl
    -- Between two barriers only the first thread of a wave combines, with the first of a later one.
    have setOffset : G.Leads (Respected (crossRights G hG place hfits k)) (σ k) (.set offset (.var skip * .var wave))
        (Respected (crossRights G hG place hfits k)) fun t => (σ k t).set offset (.i64 (o k)) :=
      leads_of_obeys fun t ht => .set_of_known (by
        rw [show o k = Int64.ofNat (2 ^ k) * G.ctx.wave by rw [hG.wave_eq, ← Int64.ofNat_mul]]
        exact Exp.eval_mul (hskipVar k t) (Exp.eval_var (known k t _ _ ht (hvars.wave t ht))))
    have later : ∀ t x v, t < G.size → σ k t x = some v → ((σ k t).set offset (.i64 (o k))) x = some v :=
      fun t x v ht => Scope.le_set (hunknown k t ht) x v
    have combine : G.Leads (Respected (crossRights G hG place hfits k)) (fun t => (σ k t).set offset (.i64 (o k)))
        (.when ((hasPartner.both ((Exp.var inWaveId).equals (.int 0))).both (isFirstOfPair (.var waveId) (.var skip)))
          step)
        (Respected (crossRights G hG place hfits k)) fun t => (σ k t).set offset (.i64 (o k)) := by
      refine leads_of_obeys fun t ht => .when fun hmay => ?_
      obtain ⟨hfirstTwo, hfirst⟩ := hmay.both
      obtain ⟨hhas, hzero⟩ := hfirstTwo.both
      have hready := hready (.i64 (Int64.ofNat (2 ^ k))) (.i64 (o k))
      have own : c.launch.ltid.eval ((σ k t).set offset (.i64 (o k))) = .ok (.i64 (Int64.ofNat t)) :=
        hready.localId t ht
      have hdivlt : t / G.width < 2 ^ 63 := by
        have := Nat.div_le_self t G.width
        omega
      have hmodlt : t % G.width < 2 ^ 63 := by
        have := Nat.mod_le t G.width
        omega
      have hmod : t % G.width = 0 := by
        have := hzero.equals (Exp.eval_var (later t _ _ ht (known k t _ _ ht (hvars.inWaveId t ht)))) (Exp.eval_int 0)
        have := congrArg Int64.toInt this
        rw [toInt_ofNat hmodlt] at this
        exact Int.ofNat_eq_zero.mp this
      have hpair : 2 ^ (k + 1) ∣ t / G.width :=
        dvd_of_isFirstOfPair hdivlt (Exp.eval_var (later t _ _ ht (known k t _ _ ht (hvars.waveId t ht))))
          (Exp.eval_mono (Scope.le_set (hunknown k t ht)) (hskipVar k t)) hfirst
      have hdvd : 2 ^ (k + 1) * G.width ∣ t := by
        rw [← Nat.div_mul_cancel (Nat.dvd_of_mod_eq_zero hmod)]
        exact Nat.mul_dvd_mul_right hpair _
      have partner : (c.launch.ltid + .var offset).eval ((σ k t).set offset (.i64 (o k))) =
          .ok (.i64 (Int64.ofNat (t + 2 ^ k * G.width))) := by
        rw [Int64.ofNat_add]
        exact Exp.eval_add own (Exp.eval_var Scope.set_self)
      have lies := hready.lies t ht
      obtain ⟨hgrantOwn, hgrantPartner⟩ := crossRights_grants hG hfits ht hdvd lies hready.watched own partner
        fun hfit => hpartner t ht _ _ hfit hhas
      exact hstep _ _ t _ (hready.before t ht) lies.lanesKnown (hgrantOwn false) hgrantPartner (hgrantOwn true)
    have setSkip : G.Leads (Respected (crossRights G hG place hfits k)) (fun t => (σ k t).set offset (.i64 (o k)))
        (.set skip (.var skip * .int 2)) (Respected (crossRights G hG place hfits k)) (σ (k + 1)) := by
      refine leads_of_obeys fun t ht => ?_
      have hmul : (Exp.var skip * Exp.int 2).eval ((σ k t).set offset (.i64 (o k))) =
          .ok (.i64 (Int64.ofNat (2 ^ (k + 1)))) := by
        rw [← ofNat_pow_mul_two]
        exact Exp.eval_mul (Exp.eval_mono (Scope.le_set (hunknown k t ht)) (hskipVar k t)) rfl
      refine (Obeys.set_of_known hmul).forget ?_
      have hnext : (σ (k + 1) t) = (σ k t).set skip (.i64 (Int64.ofNat (2 ^ (k + 1)))) := Scope.set_set.symm
      rw [hnext]
      exact (Scope.le_set (hunknown k t ht)).set
    exact barrier.andThen (setOffset.andThen (combine.andThen setSkip.sound.single))
  · intro k _ _
    exact ⟨fun _ hl => hl, fun t ht => Scope.le_set (hskip t ht)⟩

theorem wave_ne_zero (hG : G.Regular) : G.ctx.wave ≠ 0 := by
  intro h
  have hwave := hG.toInt_wave
  have hpos := hG.width_pos
  rw [h, Int64.toInt_zero] at hwave
  omega

/-- The place of each thread in the waves becomes known. -/
theorem waves_known (hG : G.Regular) (hready : c.Ready G τ n place) (R : G.Rights) :
    ∃ σ : Nat → Scope, ∃ nw : Int64,
      G.LeadsAll (Respected R) τ [
        .declareInit (numbered "wave" n) .i64 (c.launch.wave.maximum (.int 1)),
        .declareInit (numbered "wave_id" (n + 1)) .i64 (c.launch.ltid / .var (numbered "wave" n)),
        .declareInit (numbered "in_wave_id" (n + 2)) .i64
          (c.launch.ltid - .var (numbered "wave_id" (n + 1)) * .var (numbered "wave" n)),
        .declareInit (numbered "num_waves" (n + 3)) .i64 (c.launch.groupSize.divUp (.var (numbered "wave" n)))]
        (Respected R) σ ∧
      c.Ready G σ (n + 4) place ∧ (∀ t < G.size, (τ t).Le (σ t)) ∧
      WaveVars G σ (numbered "wave" n) (numbered "wave_id" (n + 1)) (numbered "in_wave_id" (n + 2)) ∧
      ∀ t < G.size, σ t (numbered "num_waves" (n + 3)) = some (.i64 nw) := by
  have hsize := hG.size_lt
  let nw := (G.ctx.groupSize + G.ctx.wave - 1) / G.ctx.wave
  let σ₁ : Nat → Scope := fun t => (τ t).set (numbered "wave" n) (.i64 G.ctx.wave)
  let σ₂ : Nat → Scope := fun t => (σ₁ t).set (numbered "wave_id" (n + 1)) (.i64 (Int64.ofNat (t / G.width)))
  let σ₃ : Nat → Scope := fun t => (σ₂ t).set (numbered "in_wave_id" (n + 2)) (.i64 (Int64.ofNat (t % G.width)))
  let σ₄ : Nat → Scope := fun t => (σ₃ t).set (numbered "num_waves" (n + 3)) (.i64 nw)
  have hready₁ : c.Ready G σ₁ (n + 1) place := hready.set (by decide)
  have hready₂ : c.Ready G σ₂ (n + 2) place := hready₁.set (by decide)
  have hready₃ : c.Ready G σ₃ (n + 3) place := hready₂.set (by decide)
  have le₁ : ∀ t < G.size, (τ t).Le (σ₁ t) := hready.le_set (by decide)
  have le₂ : ∀ t < G.size, (σ₁ t).Le (σ₂ t) := hready₁.le_set (by decide)
  have le₃ : ∀ t < G.size, (σ₂ t).Le (σ₃ t) := hready₂.le_set (by decide)
  have le₄ : ∀ t < G.size, (σ₃ t).Le (σ₄ t) := hready₃.le_set (by decide)
  have hwave : ∀ t, σ₁ t (numbered "wave" n) = some (.i64 G.ctx.wave) := fun t => Scope.set_self
  have hid : ∀ t, σ₂ t (numbered "wave_id" (n + 1)) = some (.i64 (Int64.ofNat (t / G.width))) := fun t => Scope.set_self
  have hrest : ∀ t, σ₃ t (numbered "in_wave_id" (n + 2)) = some (.i64 (Int64.ofNat (t % G.width))) := fun t =>
    Scope.set_self
  -- The width is asked for with a minimum of one, which it already has.
  have declareWave : G.Leads (Respected R) τ (.declareInit (numbered "wave" n) .i64 (c.launch.wave.maximum (.int 1)))
      (Respected R) σ₁ := by
    refine hready.declares (by decide) .i64 fun t ht => ?_
    have hmax := ((Exp.isInt_of_eval (hready.wave t ht)).maximum (.int 1)).eval
    have hone : max G.ctx.wave.toInt (1 : Int64).toInt = G.ctx.wave.toInt := by
      have hwave := hG.toInt_wave
      have hpos := hG.width_pos
      have : (1 : Int64).toInt = 1 := rfl
      omega
    rwa [hone, Int64.ofInt_toInt] at hmax
  have declareId : G.Leads (Respected R) σ₁ (.declareInit (numbered "wave_id" (n + 1)) .i64
      (c.launch.ltid / .var (numbered "wave" n))) (Respected R) σ₂ := by
    refine hready₁.declares (by decide) .i64 fun t ht => ?_
    have := Exp.eval_div (hready₁.localId t ht) (Exp.eval_var (hwave t)) (wave_ne_zero hG)
    rwa [show Int64.ofNat t / G.ctx.wave = Int64.ofNat (t / G.width) from hG.waveOf_eq (by omega)] at this
  have declareRest : G.Leads (Respected R) σ₂ (.declareInit (numbered "in_wave_id" (n + 2)) .i64
      (c.launch.ltid - .var (numbered "wave_id" (n + 1)) * .var (numbered "wave" n))) (Respected R) σ₃ := by
    refine hready₂.declares (by decide) .i64 fun t ht => ?_
    have := Exp.eval_sub (hready₂.localId t ht) (Exp.eval_mul (Exp.eval_var (hid t))
      (Exp.eval_mono (le₂ t ht) (Exp.eval_var (hwave t))))
    rwa [hG.wave_eq, ofNat_sub_div_mul] at this
  have declareWaves : G.Leads (Respected R) σ₃ (.declareInit (numbered "num_waves" (n + 3)) .i64
      (c.launch.groupSize.divUp (.var (numbered "wave" n)))) (Respected R) σ₄ :=
    hready₃.declares (by decide) .i64 fun t ht => Exp.eval_divUp (hready₃.groupSize t ht)
      (Exp.eval_mono ((le₂ t ht).trans (le₃ t ht)) (Exp.eval_var (hwave t))) (wave_ne_zero hG)
  have le₃₄ : ∀ t < G.size, (σ₂ t).Le (σ₄ t) := fun t ht => (le₃ t ht).trans (le₄ t ht)
  have le₂₄ : ∀ t < G.size, (σ₁ t).Le (σ₄ t) := fun t ht => (le₂ t ht).trans (le₃₄ t ht)
  refine ⟨σ₄, nw, declareWave.andThen (declareId.andThen (declareRest.andThen declareWaves.single)),
    hready₃.set (by decide), fun t ht => (le₁ t ht).trans (le₂₄ t ht), ⟨?_, ?_, ?_⟩, fun t _ => Scope.set_self⟩
  · exact fun t ht => le₂₄ t ht _ _ (hwave t)
  · exact fun t ht => le₃₄ t ht _ _ (hid t)
  · exact fun t ht => le₄ t ht _ _ (hrest t)

/-- A reduction that starts after a barrier does not race. -/
theorem reduce_leads (hG : G.Regular) (w : Exp) : Fresh.At n (c.reduce w) fun _ code =>
    ∀ (τ : Nat → Scope) place (count : Int64), place.Fits 1 G.size → c.Ready G τ n place →
      (∀ t < G.size, w.eval (τ t) = .ok (.i64 count)) → count.toInt ≤ G.size →
        G.Leads G.Settled τ code G.Sound τ := by
  refine .take (.take (.take (.take (.take (.take ?_)))))
  refine (combine_obeys _ _ _ none true).bind fun m inStep hm hin => ?_
  refine (combine_obeys _ _ _ none c.layout.isRows).bind fun m' crossStep hm' hcross => .pure ?_
  intro τ place count hfits hready hw hcount
  let R := (waveRights G place hfits).rights
  obtain ⟨σ, nw, hsetup, hready, hle, hvars, hnum⟩ := waves_known hG hready R
  let σ₁ : Nat → Scope := fun t => (σ t).set (numbered "offset" (n + 4)) (.i64 1)
  let σ₂ : Nat → Scope := fun t => (σ t).set (numbered "skip_waves" (n + 5)) (.i64 1)
  have hoffset : ∀ t < G.size, σ t (numbered "offset" (n + 4)) = none := fun t ht => hready.unknown (by decide) ht
  have hskip : ∀ t < G.size, σ t (numbered "skip_waves" (n + 5)) = none := fun t ht =>
    (hready.before t ht).fresh (by decide) (by omega)
  have hne : numbered "skip_waves" (n + 5) ≠ numbered "offset" (n + 4) := fun h => by
    have := (numbered_inj.mp h).2
    omega
  have hready₁ : c.Ready G σ₁ (n + 5) place := hready.set (by decide)
  have declareOffset : G.Leads (Respected R) σ (.declareInit (numbered "offset" (n + 4)) .i64 (.int 1))
    (Respected R) σ₁ :=
    hready.declares (by decide) .i64 fun _ _ => rfl
  have declareSkip : G.Leads (Respected R) σ₁ (.declareInit (numbered "skip_waves" (n + 5)) .i64 (.int 1))
      (Respected R) fun t => (σ₂ t).set (numbered "offset" (n + 4)) (.i64 1) := by
    refine (hready₁.declares (by decide) .i64 (v := fun _ => .i64 1) fun _ _ => rfl).forget fun t _ => ?_
    rw [Scope.set_comm hne]
    exact .refl _
  -- Both loops run in scopes in which the two distances have some values.
  have hready₂ : ∀ v w, c.Ready G (fun t => ((σ t).set (numbered "skip_waves" (n + 5)) v).set
      (numbered "offset" (n + 4)) w) (n + 6) place := by
    intro v w
    have hready' : c.Ready G (fun t => ((σ t).set (numbered "offset" (n + 4)) w).set (numbered "skip_waves" (n + 5)) v)
      (n + 6) place := (hready.set (v := fun _ => w) (by decide)).set (v := fun _ => v) (by decide)
    refine hready'.mono (fun t ht => ?_) fun t ht => ?_
    · rw [Scope.set_comm hne]
      exact .refl _
    · rw [Scope.set_comm hne]
      exact hready'.before t ht
  have hasPartner : ∀ v, ∀ t < G.size, ∀ o : Nat, t + o < 2 ^ 63 →
      May (((σ t).set (numbered "skip_waves" (n + 5)) v).set (numbered "offset" (n + 4)) (.i64 (Int64.ofNat o)))
        ((c.launch.ltid + .var (numbered "offset" (n + 4))).lt w) → t + o < G.size := by
    intro v t ht o hfit hmay
    have hknown : (τ t).Le (((σ t).set (numbered "skip_waves" (n + 5)) v).set (numbered "offset" (n + 4))
        (.i64 (Int64.ofNat o))) := by
      have hoff : ((σ t).set (numbered "skip_waves" (n + 5)) v) (numbered "offset" (n + 4)) = none :=
        (Scope.set_of_ne hne).trans (hoffset t ht)
      exact (hle t ht).trans ((Scope.le_set (hskip t ht)).trans (Scope.le_set hoff))
    have := hmay.lt (Exp.eval_add ((hready₂ _ _).localId t ht) (Exp.eval_var Scope.set_self))
      (Exp.eval_mono hknown (hw t ht))
    rw [← Int64.ofNat_add, toInt_ofNat hfit] at this
    omega
  have inWave := inWave_leads hG hfits (hready₂ (.i64 1)) (hvars.mono fun t ht => Scope.le_set (hskip t ht))
    (fun t ht => (Scope.set_of_ne hne).trans (hoffset t ht)) (hasPartner (.i64 1)) hin
  have crossWave := crossWave_leads hG hfits c.layout.fence (fun v w => (hready₂ v w).later hm) hvars hnum
    hoffset hskip hne (fun t ht o v => hasPartner v t ht o) hcross
  have loops := (inWave.comment "in-wave reductions").andThen <|
    ((crossWave.imp (fun _ hl => Respected.sound (R := R) hl) (fun _ _ => .refl _) (fun _ hl => hl) fun _ _ =>
      .refl _).comment "cross-wave reductions").single
  have all := hsetup.append (declareOffset.andThen (declareSkip.andThen loops))
  exact (all.block.comment "group reduction").imp (fun _ hl => hl.imp fun _ _ _ h => h.elim) (fun _ _ => .refl _)
    (fun _ hl => hl) hle

end SegKernel.Collective
