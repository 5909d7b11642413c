import SegKernel.Proofs.Races.Blocks

/-! The scan of scalars does not race. A step of a block has a part in which its threads read and a part in
    which each one writes its own element, with a barrier between them unless a wave holds whole blocks. -/

namespace SegKernel
open Watch Squad

/-! ### Code over several arrays or variables -/

section Several
variable {W : Watch} {R : W.Rights} {t : Nat} {σ : Scope} {views : List View} {index : Exp} {isWrite : Bool}
  {dests sources : List Ident}

theorem Watch.Grants.each (h : W.Grants R t σ views index isWrite) : ∀ v ∈ views, W.Grants R t σ [v] index isWrite := by
  intro v hv σ' hσ i hi w hw
  obtain rfl := List.mem_singleton.mp hw
  exact h σ' hσ i hi w hv

theorem Watch.Grants.eachUncached (h : W.Grants R t σ views index isWrite) :
    ∀ v ∈ views.map View.uncached, W.Grants R t σ [v] index isWrite := by
  intro v hv
  obtain ⟨w, hw, rfl⟩ := List.mem_map.mp hv
  exact h.withVolatile hw true

theorem readAll_obeys (hdests : ∀ x ∈ dests, σ x = none) (h : ∀ v ∈ views, W.Grants R t σ [v] index false) :
    W.Obeys R t σ [readAll views dests index] σ := by
  refine .block (.forall_mem fun stmt hstmt => ?_)
  obtain ⟨⟨v, d⟩, hmem, rfl⟩ := List.mem_map.mp hstmt
  exact .read (hdests d (List.of_mem_zip hmem).2) (h v (List.of_mem_zip hmem).1)

theorem writeAll_obeys (h : ∀ v ∈ views, W.Grants R t σ [v] index true) :
    W.Obeys R t σ [writeAll views sources index] σ := by
  refine .block (.forall_mem fun stmt hstmt => ?_)
  obtain ⟨⟨v, s⟩, hmem, rfl⟩ := List.mem_map.mp hstmt
  exact .write _ (h v (List.of_mem_zip hmem).1)

theorem setAll_obeys (hdests : ∀ x ∈ dests, σ x = none) : W.Obeys R t σ [setAll dests sources] σ := by
  refine .block (.forall_mem fun stmt hstmt => ?_)
  obtain ⟨⟨d, s⟩, hmem, rfl⟩ := List.mem_map.mp hstmt
  exact .set _ (hdests d (List.of_mem_zip hmem).1)

theorem declareAll_obeys (types : List ScalarType) (hdests : ∀ x ∈ dests, σ x = none) :
    W.Obeys R t σ [declareAll dests types] σ := by
  refine .block (.forall_mem fun stmt hstmt => ?_)
  obtain ⟨⟨d, type⟩, hmem, rfl⟩ := List.mem_map.mp hstmt
  exact .declare _ _ (hdests d (List.of_mem_zip hmem).1)

theorem Lambda.assign_obeys (l : Lambda) (xs ys : List Exp) {n : Nat} : Fresh.At n (l.assign xs ys dests) fun _ code =>
    ∀ (W : Watch) (R : W.Rights) t σ, σ.Before n → (∀ x ∈ dests, σ x = none) → W.Obeys R t σ [code] σ := by
  unfold assign
  extract_lets results
  split
  · refine .pure fun W R t σ _ hdests => .block (.forall_mem fun stmt hstmt => ?_)
    obtain ⟨⟨d, r⟩, hmem, rfl⟩ := List.mem_map.mp hstmt
    exact .set _ (hdests d (List.of_mem_zip hmem).1)
  · refine (Fresh.At.freshFor (by decide) _).bind fun m temps hm htemps => .pure fun W R t σ hσ hdests => ?_
    refine .block (.append (.forall_mem fun stmt hstmt => ?_) (.forall_mem fun stmt hstmt => ?_))
    · obtain ⟨⟨⟨d, r⟩, type⟩, hmem, rfl⟩ := List.mem_map.mp hstmt
      have hd : d ∈ temps := (List.of_mem_zip (List.of_mem_zip hmem).1).1
      exact .declareInit _ _ (hσ d (htemps d hd).new)
    · obtain ⟨⟨d, s⟩, hmem, rfl⟩ := List.mem_map.mp hstmt
      exact .set _ (hdests d (List.of_mem_zip hmem).1)

end Several

namespace Collective
variable {c : Collective} {G : Squad} {τ : Nat → Scope} {n : Nat} {b : Int64}

/-! ### The steps of a block -/

theorem fits_shared (b : Int64) (size : Nat) : (Site.shared b).Fits 1 size := by
  intro r e hr hlt _ _
  exact Int64.toInt_inj.mp (show r.toInt = (0 : Int64).toInt by rw [Int64.toInt_zero]; omega)

/-- What the threads may do in one of the two parts of a step. -/
def scanRights (hG : G.Regular) (b : Int64) (writes : Bool) : G.Rights :=
  if h : 32 ∣ G.width then (blockRights (fits_shared b G.size) h hG).rights
  else if writes then (ownRights (fits_shared b G.size)).rights
  else (stageRights (fits_shared b G.size)).rights

/-- A right to an element of shared memory is a right to its index. -/
theorem grants_of_may {C : CellRights G (.shared b)} {σ : Scope} {t : Nat} {index : Exp} {e : Int64} {isWrite : Bool}
    (hwatched : c.Watched G) (hi : index.eval σ = .ok (.i64 (b + e))) (hmay : C.may t 0 e isWrite) :
    G.Grants C.rights t σ c.views index isWrite :=
  Grants.of_eval hi fun view hview _ => ⟨hwatched view hview _, 0, e, hmay, 0, trivial, rfl⟩

theorem scanRights_read (hG : G.Regular) {σ : Scope} {t e : Nat} {index : Exp} (hwatched : c.Watched G)
    (hi : index.eval σ = .ok (.i64 (b + Int64.ofNat e))) (he : e < G.size) (hblock : e / 32 = t / 32) :
    G.Grants (scanRights hG b false) t σ c.views index false := by
  have hsize := hG.size_lt
  have hin : InRegions G 1 0 (Int64.ofNat e) := inRegions_ofNat (by decide) (by decide) (by omega) he
  unfold scanRights
  split
  · refine grants_of_may hwatched hi ⟨hin, ?_⟩
    rw [toInt_ofNat (by omega), Int.toNat_natCast, hblock]
  · rw [if_neg (by decide)]
    exact grants_of_may hwatched hi ⟨hin, Or.inl ⟨rfl, rfl⟩⟩

theorem scanRights_write (hG : G.Regular) {σ : Scope} {t : Nat} {index : Exp} (hwatched : c.Watched G)
    (hi : index.eval σ = .ok (.i64 (b + Int64.ofNat t))) (ht : t < G.size) :
    G.Grants (scanRights hG b true) t σ c.views index true := by
  have hsize := hG.size_lt
  have hin : InRegions G 1 0 (Int64.ofNat t) := inRegions_ofNat (by decide) (by decide) (by omega) ht
  have hown : (Int64.ofNat t).toInt = t := toInt_ofNat (by omega)
  unfold scanRights
  split
  · refine grants_of_may hwatched hi ⟨hin, ?_⟩
    rw [hown, Int.toNat_natCast]
  · rw [if_pos rfl]
    exact grants_of_may hwatched hi ⟨hin, hown⟩

/-- The barrier between the parts of a step is missing only where a wave holds whole blocks. -/
theorem waveBarrier_leads (hG : G.Regular) {wave : Exp} (hwave : ∀ t < G.size, wave.eval (τ t) = .ok (.i64 G.ctx.wave))
    (first second : Bool) : G.Leads (Respected (scanRights hG b first)) τ
      (.when (wave.lt (.int scanBlockSize)) (.barrier .shared)) (Respected (scanRights hG b second)) τ := by
  have htest : ∀ t < G.size, Exp.IsBool (τ t) (wave.lt (.int scanBlockSize)) (decide ((G.width : Int) < 32)) := by
    intro t ht
    have := Exp.IsBool.lt (Exp.isInt_of_eval (hwave t ht)) (.int scanBlockSize)
    rwa [hG.toInt_wave] at this
  refine leads_when htest (fun _ => leads_barrier .shared fun _ hl => hl.sound) fun hwide => ?_
  have hdvd : 32 ∣ G.width := by
    obtain ⟨m, -, hw, -⟩ := hG.width_eq
    rw [hw] at hwide ⊢
    have hle : 2 ^ 5 ≤ 2 ^ m := by
      have := of_decide_eq_false hwide
      omega
    exact Nat.pow_dvd_pow 2 ((Nat.pow_le_pow_iff_right (by omega)).mp hle)
  have same : scanRights hG b first = scanRights hG b second := by
    unfold scanRights
    rw [dif_pos hdvd, dif_pos hdvd]
  rw [same]
  exact ⟨fun _ hl => hl, fun _ _ => .refl _⟩

/-- The steps of a block, if the code between reading and writing heeds any rights. -/
theorem scanSteps_leads (hG : G.Regular) {m : Nat} {base active : Exp} {skip : Ident} {ids : BlockIds} {count : Int64}
    {xs ys : List Ident} {between : Stmt} (hready : ∀ v, c.Ready G (fun t => (τ t).set skip v) m (.shared b))
    (hbase : ∀ t < G.size, base.eval (τ t) = .ok (.i64 b)) (hids : BlockVars G τ ids count)
    (hskip : ∀ t < G.size, τ t skip = none) (hxs : ∀ v, ∀ t < G.size, ∀ x ∈ xs, ((τ t).set skip v) x = none)
    (hys : ∀ v, ∀ t < G.size, ∀ y ∈ ys, ((τ t).set skip v) y = none)
    (hbetween : ∀ (R : G.Rights) v, ∀ t < G.size, G.Obeys R t ((τ t).set skip v) [between] ((τ t).set skip v)) :
    G.Leads (Respected (scanRights hG b false)) (fun t => (τ t).set skip (.i64 1))
      (.repeatWhile ((Exp.var skip).lt (.int scanBlockSize)) <| .block [
        .when (((Exp.var skip).le (.var ids.inBlock)).both active)
          (readAll (c.views.map View.uncached) xs (base + c.launch.ltid - .var skip)),
        .when (c.launch.wave.lt (.int scanBlockSize)) (.barrier .shared),
        between,
        .when (c.launch.wave.lt (.int scanBlockSize)) (.barrier .shared),
        .when (((Exp.var skip).le (.var ids.inBlock)).both active) <| .block [
          writeAll (c.views.map View.uncached) xs (base + c.launch.ltid), setAll ys xs],
        .when (c.launch.wave.lt (.int scanBlockSize)) (.barrier .shared),
        .set skip (.var skip * .int 2)])
      G.Sound τ := by
  let σ : Nat → Nat → Scope := fun k t => (τ t).set skip (.i64 (Int64.ofNat (2 ^ k)))
  let reading : LogClaim := Respected (scanRights hG b false)
  let writing : LogClaim := Respected (scanRights hG b true)
  have hle : ∀ k, ∀ t < G.size, (τ t).Le (σ k t) := fun k t ht => Scope.le_set (hskip t ht)
  have hskipVar : ∀ k t, (Exp.var skip).eval (σ k t) = .ok (.i64 (Int64.ofNat (2 ^ k))) := fun k t =>
    Exp.eval_var Scope.set_self
  have hbase' : ∀ k, ∀ t < G.size, base.eval (σ k t) = .ok (.i64 b) :=
    fun k t ht => Exp.eval_mono (hle k t ht) (hbase t ht)
  have barrier : ∀ k first second, G.Leads (Respected (scanRights hG b first)) (σ k)
      (.when (c.launch.wave.lt (.int scanBlockSize)) (.barrier .shared)) (Respected (scanRights hG b second)) (σ k) :=
    fun k => waveBarrier_leads hG (hready _).wave
  -- Reading and writing are apart: a barrier stands between, or the wave runs in lockstep.
  have read : ∀ k < 5, G.Leads reading (σ k) (.when (((Exp.var skip).le (.var ids.inBlock)).both active)
      (readAll (c.views.map View.uncached) xs (base + c.launch.ltid - .var skip))) reading (σ k) := by
    refine fun k hk => leads_of_obeys fun t ht => .when fun hmay => ?_
    obtain ⟨hblock, hsplit⟩ := earlier_of_takesPart hk (hskipVar k t)
      (Exp.eval_mono (hle k t ht) (Exp.eval_var (hids.inBlock t ht))) hmay
    have hindex := Exp.eval_sub (Exp.eval_add (hbase' k t ht) ((hready _).localId t ht)) (hskipVar k t)
    rw [hsplit, ← Int64.add_assoc, Int64.add_sub_cancel] at hindex
    exact readAll_obeys (hxs _ t ht)
      (scanRights_read hG (hready (.i64 1)).watched hindex (Nat.lt_of_le_of_lt (Nat.sub_le t _) ht)
      hblock).eachUncached
  have write : ∀ k, G.Leads writing (σ k) (.when (((Exp.var skip).le (.var ids.inBlock)).both active) <| .block [
      writeAll (c.views.map View.uncached) xs (base + c.launch.ltid), setAll ys xs]) writing (σ k) := by
    refine fun k => leads_of_obeys fun t ht => .when fun _ => .block ?_
    have hindex := Exp.eval_add (hbase' k t ht) ((hready _).localId t ht)
    exact (writeAll_obeys (scanRights_write hG (hready (.i64 1)).watched hindex ht).eachUncached).cons
      (setAll_obeys (hys _ t ht))
  have next : ∀ k, G.Leads reading (σ k) (.set skip (.var skip * .int 2)) reading (σ (k + 1)) := fun k =>
    leads_of_obeys fun t _ => double_obeys (τ t) skip k
  refine leads_repeatWhile (L := fun _ => reading) (τ := σ) (p := fun k => k ≤ 5) (b := fun k => decide (k < 5))
    ?_ ?_ ?_ (by omega)
  · exact fun k hk t _ => skip_isBool hk (hskipVar k t)
  · intro k hk hlt
    have hlt : k < 5 := of_decide_eq_true hlt
    have combine : G.Leads writing (σ k) between writing (σ k) := leads_of_obeys fun t ht => hbetween _ _ t ht
    exact ⟨hlt, ((read k hlt).andThen ((barrier k false true).andThen (combine.andThen ((barrier k true true).andThen
      ((write k).andThen ((barrier k true false).andThen (next k).single)))))).block⟩
  · exact fun k _ _ => ⟨fun _ hl => Respected.sound hl, hle k⟩

/-- The scan of each block does not race, whichever threads take part. -/
theorem scanBlocks_leads (hG : G.Regular) (test : Option SegmentTest) (base : Exp) (ids : BlockIds) (active : Exp) :
    Fresh.At n (c.scanBlocks test base ids active) fun m r => (∀ x ∈ r.2, Taken n m x) ∧
      ∀ (τ : Nat → Scope) b count, c.Ready G τ n (.shared b) → (∀ t < G.size, base.eval (τ t) = .ok (.i64 b)) →
        BlockVars G τ ids count → G.Leads (Respected (scanRights hG b false)) τ r.1 G.Sound τ := by
  refine (Fresh.At.freshFor (by decide) _).bind fun m₁ xs hm₁ hxs => ?_
  refine (Fresh.At.freshFor (by decide) _).bind fun m₂ ys hm₂ hys => ?_
  refine .take (.take ?_)
  refine (Lambda.assign_obeys ..).bind fun m₃ apply hm₃ happly =>
    .pure ⟨fun x hx => (hxs x hx).mono (by omega) (by omega), ?_⟩
  intro τ b count hready hbase hids
  have hsize := hG.size_lt
  have hys : ∀ y ∈ ys, Taken n m₂ y := fun y hy => (hys y hy).mono hm₁ (Nat.le_refl m₂)
  have hskip : ∀ t < G.size, τ t (numbered "skip_threads" m₂) = none := fun t ht =>
    (hready.before t ht).fresh (by decide) (by omega)
  have hready' : ∀ v, c.Ready G (fun t => (τ t).set (numbered "skip_threads" m₂) v) (m₂ + 1) (.shared b) := fun v =>
    (hready.later (by omega)).set (by decide)
  -- Nothing is known of the values that the threads hold.
  have unknown : ∀ {m x}, m ≤ m₂ → Taken n m x → ∀ t < G.size, τ t x = none ∧
      ∀ v, ((τ t).set (numbered "skip_threads" m₂) v) x = none := by
    intro m x hm hx t ht
    have h := hready.before t ht x hx.new
    exact ⟨h, fun v => (Scope.set_of_ne (hx.ne_numbered hm)).trans h⟩
  have hinactive : ∀ v, ∀ t < G.size,
    ((τ t).set (numbered "skip_threads" m₂) v) (numbered "inactive" (m₂ + 1)) = none :=
    fun v t ht => (hready' v).unknown (by decide) ht
  have hxs₀ : ∀ v, ∀ t < G.size, ∀ x ∈ xs, ((τ t).set (numbered "skip_threads" m₂) v) x = none := fun v t ht x hx =>
    (unknown hm₂ (hxs x hx) t ht).2 v
  have hys₀ : ∀ v, ∀ t < G.size, ∀ y ∈ ys, ((τ t).set (numbered "skip_threads" m₂) v) y = none := fun v t ht y hy =>
    (unknown (Nat.le_refl m₂) (hys y hy) t ht).2 v
  have happly' : ∀ (R : G.Rights) v, ∀ t < G.size, G.Obeys R t ((τ t).set (numbered "skip_threads" m₂) v) [apply]
      ((τ t).set (numbered "skip_threads" m₂) v) := fun R v t ht =>
    happly _ R t _ (((hready' v).before t ht).mono (by omega)) (hxs₀ v t ht)
  have readInput : ∀ t < G.size, G.Obeys (scanRights hG b false) t (τ t) [.when active <| .block [
      readAll (c.views.map View.uncached) ys (base + c.launch.ltid),
      .when ((Exp.var ids.inBlock).equals (.int 0)) (setAll xs ys)]] (τ t) := by
    refine fun t ht => .when fun _ => .block ?_
    have hindex := Exp.eval_add (hbase t ht) (hready.localId t ht)
    exact (readAll_obeys (fun y hy => (unknown (Nat.le_refl m₂) (hys y hy) t ht).1)
      (scanRights_read hG hready.watched hindex ht rfl).eachUncached).cons
      (.when fun _ => setAll_obeys fun x hx => (unknown hm₂ (hxs x hx) t ht).1)
  have same : ∀ {stmt}, (∀ t < G.size, G.Obeys (scanRights hG b false) t (τ t) [stmt] (τ t)) →
      G.Leads (Respected (scanRights hG b false)) τ stmt (Respected (scanRights hG b false)) τ :=
        fun h => leads_of_obeys h
  have declareX := same fun t ht => declareAll_obeys c.lambda.resultTypes fun x hx => (unknown hm₂ (hxs x hx) t ht).1
  have declareY := same fun t ht => declareAll_obeys c.lambda.resultTypes fun y hy =>
    (unknown (Nat.le_refl m₂) (hys y hy) t ht).1
  have declareSkip := same fun t ht => Obeys.declare .i64 false (hskip t ht)
  have declareInactive := same fun t ht => Obeys.declare .bool false
    ((hready.before t ht).fresh (show "inactive" ∈ _ by decide) (show n ≤ m₂ + 1 by omega))
  have setSkip : G.Leads (Respected (scanRights hG b false)) τ (.set (numbered "skip_threads" m₂) (.int 1))
      (Respected (scanRights hG b false)) fun t => (τ t).set (numbered "skip_threads" m₂) (.i64 1) :=
    leads_of_obeys fun t _ => .set_of_known rfl
  refine (declareX.andThen (declareY.andThen (declareSkip.andThen (declareInactive.andThen
    (((same readInput).comment _).andThen (setSkip.andThen (Leads.comment _ ?_).single)))))).block
  refine scanSteps_leads hG hready' hbase hids hskip hxs₀ hys₀ fun R v t ht => ?_
  cases test with
  | none => exact .when fun _ => happly' R v t ht
  | some test =>
    exact .block ((Obeys.set _ (hinactive v t ht)).cons ((Obeys.when fun _ => setAll_obeys (hxs₀ v t ht)).cons
      (.when fun _ => happly' R v t ht)))

/-! ### The whole scan -/

/-- The last thread of each block publishes its total. -/
theorem publishScalar_leads (hG : G.Regular) (hready : c.Ready G τ n (.shared b)) {base : Exp} {ids : BlockIds}
    {count : Int64} (hbase : ∀ t < G.size, base.eval (τ t) = .ok (.i64 b)) (hids : BlockVars G τ ids count)
    (active : Exp) (xs : List Ident) : G.Leads (Respected (publishRights (fits_shared b G.size) 0).rights) τ
      (.when (ids.isLastInBlock.both active) (writeAll (c.views.map View.uncached) xs (base + .var ids.block)))
      (Respected (publishRights (fits_shared b G.size) 0).rights) τ := by
  refine leads_of_obeys fun t ht => .when fun hmay => ?_
  have hsize := hG.size_lt
  have hlast := last_of_may (hids.inBlock t ht) hmay
  have hindex := Exp.eval_add (hbase t ht) (Exp.eval_var (hids.block t ht))
  have hin : InRegions G 1 0 (Int64.ofNat (t / 32)) := inRegions_ofNat (by decide) (by decide) (by omega) (by omega)
  have hmay : (publishRights (fits_shared b G.size) 0).may t 0 (Int64.ofNat (t / 32)) true :=
    ⟨hin, Or.inr ⟨rfl, hlast, toInt_ofNat (by omega)⟩⟩
  exact writeAll_obeys (grants_of_may hready.watched hindex hmay).eachUncached

/-- The threads after the first block read the total of the blocks before and write their elements. -/
theorem carryScalar_leads (hG : G.Regular) (hlimit : G.size ≤ 1024) (hready : c.Ready G τ n (.shared b)) {base : Exp}
    {ids : BlockIds} {count : Int64} {noCarry : Ident} {outside : Nat → Bool} {own xs : List Ident} {between : Stmt}
    (hbase : ∀ t < G.size, base.eval (τ t) = .ok (.i64 b)) (hids : BlockVars G τ ids count)
    (hcarry : ∀ t < G.size, τ t noCarry = some (.bool (decide (t < 32) || outside t)))
    (hown : ∀ t < G.size, ∀ x ∈ own, τ t x = none) (hxs : ∀ t < G.size, ∀ x ∈ xs, τ t x = none)
    (hbetween : ∀ (R : G.Rights), ∀ t < G.size, G.Obeys R t (τ t) [between] (τ t)) :
    G.Leads (Respected (carryRights (fits_shared b G.size) hlimit).rights) τ (.block [
      .when (Exp.var noCarry).negation <| .block [
        setAll own xs, readAll (c.views.map View.uncached) xs (base + .var ids.block - .int 1)],
      between, .when (Exp.var noCarry).negation (writeAll c.views xs (base + c.launch.ltid))])
      (Respected (carryRights (fits_shared b G.size) hlimit).rights) τ := by
  have hsize := hG.size_lt
  have late : ∀ t < G.size, May (τ t) (Exp.var noCarry).negation → 32 ≤ t := by
    intro t ht hmay
    have hfalse := hmay.isBool (Exp.IsBool.negation (Exp.eval_var (hcarry t ht)))
    simp only [Bool.not_eq_true', Bool.or_eq_false_iff, decide_eq_false_iff_not] at hfalse
    omega
  have hin : ∀ e < G.size, InRegions G 1 0 (Int64.ofNat e) := fun e he =>
    inRegions_ofNat (by decide) (by decide) (by omega) he
  refine leads_of_obeys fun t ht => .block (.cons ?_ ((hbetween _ t ht).cons ?_))
  · refine .when fun hmay => .block ((setAll_obeys (hown t ht)).cons (readAll_obeys (hxs t ht) ?_))
    have hlate := late t ht hmay
    have hindex := Exp.eval_sub (Exp.eval_add (hbase t ht) (Exp.eval_var (hids.block t ht))) (Exp.eval_int 1)
    rw [ofNat_block hlate, ← Int64.add_assoc, Int64.add_sub_cancel] at hindex
    have hmay : (carryRights (fits_shared b G.size) hlimit).may t 0 (Int64.ofNat (t / 32 - 1)) false := by
      refine ⟨hin _ (by omega), hlate, Or.inr ⟨rfl, ?_⟩⟩
      rw [toInt_ofNat (by omega)]
      omega
    exact (grants_of_may hready.watched hindex hmay).eachUncached
  · refine .when fun hmay => writeAll_obeys ?_
    have hindex := Exp.eval_add (hbase t ht) (hready.localId t ht)
    have hmay : (carryRights (fits_shared b G.size) hlimit).may t 0 (Int64.ofNat t) true :=
      ⟨hin t ht, late t ht hmay, Or.inl (toInt_ofNat (by omega))⟩
    exact (grants_of_may hready.watched hindex hmay).each

/-- Each thread writes its own element. -/
theorem writeOwn_leads (hG : G.Regular) (hready : c.Ready G τ n (.shared b)) {base : Exp}
    (hbase : ∀ t < G.size, base.eval (τ t) = .ok (.i64 b)) (active : Exp) (xs : List Ident) :
    G.Leads (Respected (ownRights (fits_shared b G.size)).rights) τ
      (.when active (writeAll c.views xs (base + c.launch.ltid)))
        (Respected (ownRights (fits_shared b G.size)).rights) τ := by
  refine leads_of_obeys fun t ht => .when fun _ => writeAll_obeys ?_
  have hsize := hG.size_lt
  have hindex := Exp.eval_add (hbase t ht) (hready.localId t ht)
  have hmay : (ownRights (fits_shared b G.size)).may t 0 (Int64.ofNat t) true :=
    ⟨inRegions_ofNat (by decide) (by decide) (by omega) ht, toInt_ofNat (by omega)⟩
  exact (grants_of_may hready.watched hindex hmay).each

/-- A scan of scalars that starts after a barrier does not race. -/
theorem scanScalars_leads (hG : G.Regular) (hlimit : G.size ≤ 1024) (test : Option SegmentTest) (base w : Exp) :
    Fresh.At n (c.scanScalars test base w) fun _ code =>
      ∀ (τ : Nat → Scope) b (count : Int64), c.Ready G τ n (.shared b) →
        (∀ t < G.size, base.eval (τ t) = .ok (.i64 b)) →
        (∀ t < G.size, w.eval (τ t) = .ok (.i64 count)) →
          G.Leads G.Settled τ code G.Settled τ := by
  refine (blocks_known hG w).bind fun m₀ r _ => ?_
  rintro ⟨rfl, hblocks⟩
  refine (scanBlocks_leads hG test base r.1 _).bind fun m₁ r₁ hm₁ hscan => ?_
  obtain ⟨hxs, hblockScan⟩ := hscan
  refine (scanBlocks_leads hG _ base r.1 _).bind fun m₂ r₂ hm₂ hscan => ?_
  obtain ⟨-, hcarryScan⟩ := hscan
  refine (Fresh.At.freshFor (by decide) _).bind fun m₃ own hm₃ hown => .take ?_
  refine (Lambda.assign_obeys ..).bind fun m₄ apply hm₄ happly => ?_
  extract_lets writeBack rest
  have hrest : ∀ m code, (∀ (W : Watch) (R : W.Rights) t σ, σ.Before (m₃ + 1) → (∀ x ∈ r₁.2, σ x = none) →
      W.Obeys R t σ [code] σ) → Fresh.At m (rest code) fun _ code =>
        ∀ (τ : Nat → Scope) b (count : Int64), c.Ready G τ n (.shared b) →
          (∀ t < G.size, base.eval (τ t) = .ok (.i64 b)) →
          (∀ t < G.size, w.eval (τ t) = .ok (.i64 count)) →
            G.Leads G.Settled τ code G.Settled τ := by
    refine fun m combine hcombine => .pure fun τ b count hready hbase hw => ?_
    obtain ⟨σ, declareIds, hready, hle, hids⟩ := hblocks τ (.shared b) count hready hw
    have hsize := hG.size_lt
    have hbase : ∀ t < G.size, base.eval (σ t) = .ok (.i64 b) := fun t ht => Exp.eval_mono (hle t ht) (hbase t ht)
    let noCarry : Ident := numbered "no_carry_in" m₃
    let σ' : Nat → Scope := fun t => (σ t).set noCarry (.bool (decide (t < 32) || !decide ((t : Int) < count.toInt)))
    have hready' : c.Ready G σ' (m₃ + 1) (.shared b) := (hready.later (by omega)).set (by decide)
    have hle' : ∀ t < G.size, (σ t).Le (σ' t) := (hready.later (by omega)).le_set (by decide)
    have hbase' : ∀ t < G.size, base.eval (σ' t) = .ok (.i64 b) := fun t ht => Exp.eval_mono (hle' t ht) (hbase t ht)
    -- Nothing is known of the values that the threads hold.
    have unknown : ∀ {k l x}, n + 3 ≤ k → l ≤ m₃ → Taken k l x → ∀ t < G.size, σ t x = none ∧ σ' t x = none := by
      intro k l x hk hl hx t ht
      have h := hready.before t ht x (hx.new.mono hk)
      exact ⟨h, (Scope.set_of_ne (hx.ne_numbered hl)).trans h⟩
    have hxs' : ∀ t < G.size, ∀ x ∈ r₁.2, σ' t x = none := fun t ht x hx =>
      (unknown (Nat.le_refl _) (by omega) (hxs x hx) t ht).2
    have hown' : ∀ t < G.size, ∀ x ∈ own, σ t x = none ∧ σ' t x = none := fun t ht x hx =>
      unknown (by omega) (Nat.le_refl _) (hown x hx) t ht
    have barrier : ∀ {R : G.Rights} {τ}, G.Leads (Respected R) τ (.barrier .shared) G.Settled τ :=
      leads_barrier .shared fun _ hl => hl.sound
    have barrierAfterScan : G.Leads G.Sound σ (.barrier .shared) G.Settled σ := leads_barrier .shared fun _ hl => hl
    have declareOwn : G.Leads G.Settled σ (declareAll own c.lambda.resultTypes) G.Settled σ :=
      leads_of_obeys fun t ht => declareAll_obeys _ fun x hx => (hown' t ht x hx).1
    have declareNoCarry : G.Leads G.Settled σ (.declareInit noCarry .bool
        (r.1.isFirstBlock.either (Exp.var r.1.inBounds).negation)) G.Settled σ' :=
      (hready.later (by omega)).declares (by decide) .bool fun t ht =>
        (firstBlock_isBool (by omega) (hids.block t ht)).either fun _ =>
          Exp.IsBool.negation (Exp.eval_var (hids.inBounds t ht))
    have publish := publishScalar_leads hG hready hbase hids (.var r.1.inBounds) r₁.2
    have carryIn := carryScalar_leads hG hlimit hready' hbase' (hids.mono hle') (fun t _ => Scope.set_self)
      (fun t ht x hx => (hown' t ht x hx).2) hxs' fun R t ht => hcombine _ R t _ (hready'.before t ht) (hxs' t ht)
    have restore := writeOwn_leads hG hready' hbase' (r.1.isFirstBlock.both (.var r.1.inBounds)) r₁.2
    refine (LeadsAll.block (?_ : G.LeadsAll G.Settled τ _ G.Settled σ')).forget fun t ht => (hle t ht).trans (hle' t ht)
    exact (declareIds _).andThen <| (hblockScan σ b count hready hbase hids).start.andThen <|
      barrierAfterScan.andThen <| (publish.start.comment _).andThen <| barrier.andThen <|
      ((hcarryScan σ b count (hready.later hm₁) hbase hids).start.comment _).andThen <| barrierAfterScan.andThen <|
      declareOwn.andThen <| declareNoCarry.andThen <| (carryIn.start.comment _).andThen <| barrier.andThen <|
      (restore.start.comment _).andThen barrier.single
  cases test with
  | none => exact hrest m₄ _ fun W R t σ hσ hxs => .when fun _ => happly W R t σ hσ hxs
  | some test =>
    refine .take (hrest (m₄ + 1) _ fun W R t σ hσ hxs => .block ?_)
    have hinactive : σ (numbered "inactive" m₄) = none := hσ.fresh (by decide) hm₄
    exact (Obeys.declareInit _ _ hinactive).cons ((Obeys.when fun _ => setAll_obeys hxs).cons
      (.when fun _ => happly W R t σ hσ hxs))

end Collective
end SegKernel
