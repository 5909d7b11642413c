import SegKernel.Proofs.Races.Reduction
import SegKernel.Proofs.Races.Blocks
import SegKernel.Proofs.Races.Scalars

/-! Collective operations on more elements than threads do not race. They go chunk by chunk, and between
    two chunks only the first thread takes over what came before. -/

namespace SegKernel.Collective
open Watch Squad

variable {c : Collective} {G : Squad} {n : Nat} {place : Site}

/-- No sum of 64-bit integers with a nonnegative one is larger than it should be. -/
theorem toInt_sum_le (a b : Int64) (hb : 0 < b.toInt) : (a + b - 1).toInt ≤ a.toInt + b.toInt - 1 := by
  have ha := fits_toInt a
  have hb' := fits_toInt b
  unfold Fits at ha hb'
  rw [Int64.toInt_sub, Int64.toInt_add, show (1 : Int64).toInt = 1 from rfl]
  simp only [Int.bmod]
  split <;> split <;> omega

/-- Each chunk has at most as many elements as there are threads. -/
theorem chunk_size_le (hG : G.Regular) {count : Int64} {k : Nat}
    (hk : k < ((count + G.ctx.groupSize - 1) / G.ctx.groupSize).toInt.toNat) :
    (min count (Int64.ofNat k * G.ctx.groupSize + G.ctx.groupSize) - Int64.ofNat k * G.ctx.groupSize).toInt ≤
      G.size := by
  have hgs := hG.toInt_groupSize
  have hpos := G.pos
  have hcount := fits_toInt count
  have hsum := toInt_sum_le count G.ctx.groupSize (by omega)
  have hsumFits := fits_toInt (count + G.ctx.groupSize - 1)
  generalize count + G.ctx.groupSize - 1 = a at hk hsum hsumFits
  unfold Fits at hcount hsumFits
  rw [toInt_div_of_fits (hgs ▸ fits_tdiv (fits_toInt a) (by omega)), hgs] at hk
  -- The chunk ends within the rounded number of elements, so its bounds are not out of range.
  have hnonneg : 0 ≤ a.toInt := by
    by_contra hneg
    have := Int.tdiv_nonneg (show 0 ≤ -a.toInt by omega) (show (0 : Int) ≤ G.size by omega)
    rw [Int.neg_tdiv] at this
    omega
  have hroom : ((k : Int) + 1) * G.size ≤ a.toInt := by
    rw [Int.tdiv_eq_ediv_of_nonneg hnonneg] at hk
    exact Int.mul_le_of_le_ediv (by omega) (by omega)
  have hend : ((k : Int) + 1) * G.size = k * G.size + G.size := by rw [Int.add_mul, Int.one_mul]
  have hstart : 0 ≤ (k : Int) * G.size := Int.mul_nonneg (by omega) (by omega)
  have hk63 : k < 2 ^ 63 := by
    have : (k : Int) * 1 ≤ k * G.size := Int.mul_le_mul_of_nonneg_left (by omega) (by omega)
    omega
  have e₁ : (Int64.ofNat k * G.ctx.groupSize).toInt = k * G.size := by
    rw [toInt_mul_of_fits] <;> rw [toInt_ofNat hk63, hgs]
    unfold Fits
    omega
  have e₂ : (Int64.ofNat k * G.ctx.groupSize + G.ctx.groupSize).toInt = k * G.size + G.size := by
    rw [toInt_add_of_fits] <;> rw [e₁, hgs]
    unfold Fits
    omega
  rw [toInt_sub_of_fits] <;> rw [toInt_min, e₁, e₂]
  · omega
  · unfold Fits
    omega

/-- What holds of each chunk holds of all of them. -/
theorem coverChunks_leads (hG : G.Regular) (place : Site) (w : Exp) :
    Fresh.At n (c.launch.coverChunks w) fun m r => m = n + 4 ∧
    ∀ body : Stmt, (∀ (σ : Nat → Scope) (start size : Int64), c.Ready G σ (n + 4) place →
      (∀ t < G.size, r.1.eval (σ t) = .ok (.i64 start)) → (∀ t < G.size, r.2.1.eval (σ t) = .ok (.i64 size)) →
        size.toInt ≤ G.size → G.Leads G.Settled σ body G.Settled σ) →
      ∀ (τ : Nat → Scope) (count : Int64), c.Ready G τ n place → (∀ t < G.size, w.eval (τ t) = .ok (.i64 count)) →
        G.Leads G.Settled τ (r.2.2.wrap body) G.Settled τ := by
  refine .take (.take (.take (.take (.pure ⟨rfl, fun body hbody τ count hready hw => ?_⟩))))
  have hgs : G.ctx.groupSize ≠ 0 := by
    intro h
    have hsize := hG.toInt_groupSize
    have hpos := G.pos
    rw [h, Int64.toInt_zero] at hsize
    omega
  let chunks := (count + G.ctx.groupSize - 1) / G.ctx.groupSize
  let σ₁ : Nat → Scope := fun t => (τ t).set (numbered "num_chunks" n) (.i64 chunks)
  have hready₁ : c.Ready G σ₁ (n + 1) place := hready.set (by decide)
  have le₁ : ∀ t < G.size, (τ t).Le (σ₁ t) := hready.le_set (by decide)
  have declareChunks : G.Leads G.Settled τ (.declareInit (numbered "num_chunks" n) .i64 (w.divUp c.launch.groupSize))
      G.Settled σ₁ :=
    hready.declares (by decide) .i64 fun t ht => Exp.eval_divUp (hw t ht) (hready.groupSize t ht) hgs
  -- A round settles before it ends, so the next one starts from no open access.
  have round : ∀ k < chunks.toInt.toNat, G.Leads G.Settled
      (fun t => (σ₁ t).set (numbered "chunk_i" (n + 1)) (.i64 (Int64.ofNat k))) (.block [
        .declareInit (numbered "chunk_start" (n + 2)) .i64 (.var (numbered "chunk_i" (n + 1)) * c.launch.groupSize),
        .declareInit (numbered "chunk_size" (n + 3)) .i64 (w.minimum (.var (numbered "chunk_start" (n + 2)) +
          c.launch.groupSize) - .var (numbered "chunk_start" (n + 2))),
        body]) G.Settled σ₁ := by
    intro k hk
    let start := Int64.ofNat k * G.ctx.groupSize
    let size := min count (start + G.ctx.groupSize) - start
    let σ₂ : Nat → Scope := fun t => (σ₁ t).set (numbered "chunk_i" (n + 1)) (.i64 (Int64.ofNat k))
    let σ₃ : Nat → Scope := fun t => (σ₂ t).set (numbered "chunk_start" (n + 2)) (.i64 start)
    let σ₄ : Nat → Scope := fun t => (σ₃ t).set (numbered "chunk_size" (n + 3)) (.i64 size)
    have hready₂ : c.Ready G σ₂ (n + 2) place := hready₁.set (by decide)
    have hready₃ : c.Ready G σ₃ (n + 3) place := hready₂.set (by decide)
    have hready₄ : c.Ready G σ₄ (n + 4) place := hready₃.set (by decide)
    have le₂ : ∀ t < G.size, (σ₁ t).Le (σ₂ t) := hready₁.le_set (by decide)
    have le₃ : ∀ t < G.size, (σ₂ t).Le (σ₃ t) := hready₂.le_set (by decide)
    have le₄ : ∀ t < G.size, (σ₃ t).Le (σ₄ t) := hready₃.le_set (by decide)
    have hstart : ∀ t, (Exp.var (numbered "chunk_start" (n + 2))).eval (σ₃ t) = .ok (.i64 start) := fun t =>
      Exp.eval_var Scope.set_self
    have declareStart : G.Leads G.Settled σ₂ (.declareInit (numbered "chunk_start" (n + 2)) .i64
        (.var (numbered "chunk_i" (n + 1)) * c.launch.groupSize)) G.Settled σ₃ :=
      hready₂.declares (by decide) .i64 fun t ht => Exp.eval_mul (Exp.eval_var Scope.set_self) (hready₂.groupSize t ht)
    have declareSize : G.Leads G.Settled σ₃ (.declareInit (numbered "chunk_size" (n + 3)) .i64
        (w.minimum (.var (numbered "chunk_start" (n + 2)) + c.launch.groupSize) -
          .var (numbered "chunk_start" (n + 2)))) G.Settled σ₄ :=
      hready₃.declares (by decide) .i64 fun t ht => by
        have hw' := Exp.eval_mono ((le₁ t ht).trans ((le₂ t ht).trans (le₃ t ht))) (hw t ht)
        exact Exp.eval_sub (Exp.eval_min hw' (Exp.eval_add (hstart t) (hready₃.groupSize t ht))) (hstart t)
    have main := hbody σ₄ start size hready₄ (fun t ht => Exp.eval_mono (le₄ t ht) (hstart t))
      (fun t _ => Exp.eval_var Scope.set_self) (chunk_size_le hG hk)
    exact (declareStart.andThen (declareSize.andThen main.single)).block.forget fun t ht =>
      (le₂ t ht).trans ((le₃ t ht).trans (le₄ t ht))
  have loop := leads_loop (L := fun _ => G.Settled) (τ := fun _ => σ₁) (fun t _ => Exp.eval_var Scope.set_self) round
  exact (declareChunks.andThen loop.single).block.forget le₁

theorem Lies.base {base : Exp} {σ : Scope} (hlayout : c.layout = .shared base) (h : c.Lies σ place) :
    ∃ b, place = .shared b ∧ base.eval σ = .ok (.i64 b) := by
  unfold Lies at h
  rw [hlayout] at h
  cases place with
  | shared b => exact ⟨b, rfl, h⟩
  | rows => exact h.elim

/-- A scan that starts after a barrier does not race. -/
theorem scan_leads (hG : G.Regular) (hlimit : G.size ≤ 1024) (test : Option SegmentTest) (w : Exp) :
    Fresh.At n (c.scan test w) fun _ code =>
      ∀ (τ : Nat → Scope) place (count : Int64), (c.layout.isRows = true → place.Fits 3 G.size) → c.Ready G τ n place →
        (∀ t < G.size, w.eval (τ t) = .ok (.i64 count)) → G.Leads G.Settled τ code G.Settled τ := by
  unfold scan
  split
  · rename_i base hlayout
    refine (scanScalars_leads hG hlimit test base w).bind fun m code _ hcode => .pure ?_
    intro τ place count _ hready hw
    obtain ⟨b, rfl, -⟩ := (hready.lies 0 G.pos).base hlayout
    refine (hcode τ b count hready (fun t ht => ?_) hw).comment _
    obtain ⟨b', hb, hbase⟩ := (hready.lies t ht).base hlayout
    cases hb
    exact hbase
  · rename_i hlayout
    refine (scanRows_leads hG hlimit test w).bind fun m code _ hcode => .pure ?_
    intro τ place count hfits hready hw
    exact (hcode τ place count (hfits (by rw [hlayout]; rfl)) hready hw).comment _

/-! ### Chunks -/

section Chunks
variable {launch : Launch} {lambda : Lambda} {views : List View} {σ : Nat → Scope}

/-- What is known for all elements is known for those from a base on. -/
theorem Ready.rebase {base : Exp} {b b' : Int64} {base' : Exp}
    (h : Ready ⟨launch, lambda, views, .shared base⟩ G σ n (.shared b))
    (hbase : ∀ t < G.size, base'.eval (σ t) = .ok (.i64 b')) :
    Ready ⟨launch, lambda, views, .shared base'⟩ G σ n (.shared b') where
  before := h.before
  localId := h.localId
  wave := h.wave
  groupSize := h.groupSize
  lies := hbase
  watched := h.watched

/-- Only the first thread takes over what came before a chunk. -/
theorem carry_leads (hG : G.Regular) (start : Exp) {condition : Exp} {code : Stmt}
    (hid : ∀ t < G.size, launch.ltid.eval (σ t) = .ok (.i64 (Int64.ofNat t)))
    (hmay : ∀ t < G.size, May (σ t) condition → May (σ t) ((start.gt (.int 0)).both (launch.ltid.equals (.int 0))))
    (hcode : G.Obeys (soloRights G 0) 0 (σ 0) [code] (σ 0)) :
    G.Leads (Respected (soloRights G 0)) σ (.when condition code) (Respected (soloRights G 0)) σ := by
  refine leads_of_obeys fun t ht => .when fun hcondition => ?_
  have hsize := hG.size_lt
  have hzero := congrArg Int64.toInt ((hmay t ht hcondition).both.2.equals (hid t ht) (Exp.eval_int 0))
  rw [toInt_ofNat (by omega), Int64.toInt_zero] at hzero
  obtain rfl : t = 0 := by omega
  exact hcode

/-- A reduction chunk by chunk that starts after a barrier does not race. -/
theorem reduceChunks_leads (hG : G.Regular) (w : Exp) : Fresh.At n (reduceChunks launch lambda views w) fun _ code =>
    ∀ (τ : Nat → Scope) (count : Int64), Ready ⟨launch, lambda, views, .shared (.int 0)⟩ G τ n (.shared 0) →
      (∀ t < G.size, w.eval (τ t) = .ok (.i64 count)) → G.Leads G.Settled τ code G.Settled τ := by
  let whole : Collective := ⟨launch, lambda, views, .shared (.int 0)⟩
  refine (coverChunks_leads (c := whole) hG (.shared 0) w).bind fun m r _ => ?_
  rintro ⟨rfl, hnest⟩
  let chunk : Collective := ⟨launch, lambda, views, .shared r.1⟩
  refine (combine_obeys (c := whole) ..).bind fun m₁ carryIn hm₁ hcarryIn => ?_
  refine (reduce_leads (c := chunk) hG r.2.1).bind fun m₂ reduction hm₂ hreduction => ?_
  refine (copy_obeys (c := whole) ..).bind fun m₃ carryOut hm₃ hcarryOut => .pure ?_
  refine hnest _ fun σ start size hready hstart hsize hle => ?_
  have hchunk : chunk.Ready G σ m₁ (.shared start) := (hready.rebase hstart).later hm₁
  have lies := hready.lies 0 G.pos
  have grants : ∀ {e : Exp} {i : Int64} isWrite, e.eval (σ 0) = .ok (.i64 i) →
      whole.GrantsCell G.toWatch (soloRights G 0) 0 (σ 0) { element := e } isWrite := fun isWrite he =>
    lies.grantsCell_solo hready.watched he
  have first := grants (e := .int 0) false rfl
  have carriesIn := carry_leads hG r.1 hready.localId (fun _ _ h => h) (hcarryIn _ _ 0 _
    (hready.before 0 G.pos) lies.lanesKnown first (grants false (hstart 0 G.pos)) (grants true (hstart 0 G.pos)))
  have carriesOut := carry_leads hG r.1 hready.localId (fun _ _ h => h) (hcarryOut _ _ 0 _
    ((hready.before 0 G.pos).mono (by omega)) lies.lanesKnown (grants false (hstart 0 G.pos)) (grants true rfl))
  have barrier : ∀ {R : G.Rights}, G.Leads (Respected R) σ (.barrier .shared) G.Settled σ :=
    leads_barrier .shared fun _ hl => hl.sound
  have reduces := hreduction σ (.shared start) size (fits_shared start G.size) hchunk hsize hle
  exact ((carriesIn.start.comment _).andThen <| barrier.andThen <| reduces.andThen <|
    (leads_barrier .shared fun _ hl => hl).andThen <| carriesOut.start.andThen barrier.single).block

/-- A scan chunk by chunk that starts after a barrier does not race. -/
theorem scanChunks_leads (hG : G.Regular) (hlimit : G.size ≤ 1024) (test : Option SegmentTest) (w : Exp) :
    Fresh.At n (scanChunks launch lambda views test w) fun _ code =>
      ∀ (τ : Nat → Scope) (count : Int64), Ready ⟨launch, lambda, views, .shared (.int 0)⟩ G τ n (.shared 0) →
        (∀ t < G.size, w.eval (τ t) = .ok (.i64 count)) → G.Leads G.Settled τ code G.Settled τ := by
  let whole : Collective := ⟨launch, lambda, views, .shared (.int 0)⟩
  refine (coverChunks_leads (c := whole) hG (.shared 0) w).bind fun m r _ => ?_
  rintro ⟨rfl, hnest⟩
  let chunk : Collective := ⟨launch, lambda, views, .shared r.1⟩
  refine (combine_obeys (c := whole) ..).bind fun m₁ carryIn hm₁ hcarryIn => ?_
  refine (scan_leads (c := chunk) hG hlimit _ r.2.1).bind fun m₂ scan hm₂ hscan => .pure ?_
  refine hnest _ fun σ start size hready hstart hsize _ => ?_
  have hchunk : chunk.Ready G σ m₁ (.shared start) := (hready.rebase hstart).later hm₁
  have lies := hready.lies 0 G.pos
  have grants : ∀ {e : Exp} {i : Int64} isWrite, e.eval (σ 0) = .ok (.i64 i) →
      whole.GrantsCell G.toWatch (soloRights G 0) 0 (σ 0) { element := e } isWrite := fun isWrite he =>
    lies.grantsCell_solo hready.watched he
  have previous := Exp.eval_sub (hstart 0 G.pos) (Exp.eval_int 1)
  have obeys := hcarryIn _ _ 0 _ (hready.before 0 G.pos) lies.lanesKnown (grants false previous)
    (grants false (hstart 0 G.pos)) (grants true (hstart 0 G.pos))
  have carriesIn : ∀ crosses, G.Leads (Respected (soloRights G 0)) σ
      (.when (((r.1.gt (.int 0)).both (launch.ltid.equals (.int 0))).both crosses) carryIn)
        (Respected (soloRights G 0)) σ :=
    fun _ => carry_leads hG r.1 hready.localId (fun _ _ h => h.both.1) obeys
  have barrier : G.Leads (Respected (soloRights G 0)) σ (.barrier .shared) G.Settled σ :=
    leads_barrier .shared fun _ hl => hl.sound
  have scans := hscan σ (.shared start) size (by rintro ⟨⟩) hchunk hsize
  exact (((carriesIn _).start.comment _).andThen <| barrier.andThen scans.single).block

end Chunks

end SegKernel.Collective
