import SegKernel.Collective.Scan
import SegKernel.Proofs.Races.Waves

/-! What the threads may do in the phases of a scan. The threads form blocks of 32. In a block each thread
    reads the element of an earlier one. Then the last thread of each block gives its element away, and
    the threads of the other blocks read it. -/

namespace SegKernel.Collective
open Watch Squad

variable {c : Collective} {G : Squad} {τ : Nat → Scope} {n regions : Nat} {place : Site}

/-! ### Rights -/

/-- The elements of some regions. -/
structure InRegions (G : Squad) (regions : Nat) (r e : Int64) : Prop where
  nonneg : 0 ≤ r.toInt
  lt : r.toInt < regions
  within : Within G e

theorem InRegions.valid {r e : Int64} (h : InRegions G regions r e) (hfits : place.Fits regions G.size) :
    place.Valid r e := hfits r e h.nonneg h.lt h.within.1 h.within.2

theorem inRegions_ofNat {r : Int64} {e : Nat} (hr : 0 ≤ r.toInt) (hr' : r.toInt < regions) (he : e < 2 ^ 63)
    (hsize : e < G.size) : InRegions G regions r (Int64.ofNat e) := ⟨hr, hr', within_ofNat he hsize⟩

variable (hfits : place.Fits regions G.size)

/-- Each thread may do what it wants with its element. -/
def ownRights : CellRights G place where
  may t r e _ := InRegions G regions r e ∧ e.toInt = t
  valid h := h.1.valid hfits
  apart := by
    rintro t t' r e _ - - ⟨-, h⟩ ⟨-, h'⟩
    rw [show t' = t by omega]

/-- All may read the first region, and each thread may write its element in the second one. -/
def stageRights : CellRights G place where
  may t r e isWrite := InRegions G regions r e ∧ (r = 0 ∧ isWrite = false ∨ r = 1 ∧ e.toInt = t)
  valid h := h.1.valid hfits
  apart := by
    rintro t t' r e isWrite - - ⟨-, h⟩ ⟨-, h'⟩
    obtain ⟨rfl, he⟩ : r = 1 ∧ e.toInt = t := by simpa using h
    obtain he' : e.toInt = t' := by simpa using h'
    rw [show t' = t by omega]

/-- The threads of a block may do what they want with its elements. This needs waves of whole blocks. -/
def blockRights (hwidth : 32 ∣ G.width) (hG : G.Regular) : CellRights G place where
  may t r e _ := InRegions G regions r e ∧ e.toInt.toNat / 32 = t / 32
  valid h := h.1.valid hfits
  apart := by
    rintro t t' r e _ ht ht' ⟨-, h⟩ ⟨-, h'⟩
    have hsize := hG.size_lt
    refine hG.waveOf_congr (by omega) (by omega) ?_
    obtain ⟨m, hm⟩ := hwidth
    rw [hm, ← Nat.div_div_eq_div_mul, ← Nat.div_div_eq_div_mul, ← h, ← h']

/-- The last thread of each block may write the element with the number of the block in a region. All may
    read the first region, if it is another one. -/
def publishRights (target : Int64) : CellRights G place where
  may t r e isWrite := InRegions G regions r e ∧
    (r = 0 ∧ isWrite = false ∧ target ≠ 0 ∨ r = target ∧ t % 32 = 31 ∧ e.toInt = (t / 32 : Nat))
  valid h := h.1.valid hfits
  apart := by
    rintro t t' r e isWrite - - ⟨-, h⟩ ⟨-, h'⟩
    obtain ⟨rfl, hlast, he⟩ : r = target ∧ t % 32 = 31 ∧ e.toInt = (t / 32 : Nat) := by simpa using h
    rcases h' with ⟨hr, -, hne⟩ | ⟨-, hlast', he'⟩
    · exact absurd hr hne
    · rw [show t' = t by omega]

/-- The threads after the first block may write their elements, and read the one with the number of the
    block before their own. -/
def carryRights (hsize : G.size ≤ 1024) : CellRights G place where
  may t r e isWrite := InRegions G regions r e ∧ 32 ≤ t ∧ (e.toInt = t ∨ isWrite = false ∧ e.toInt + 1 = (t / 32 : Nat))
  valid h := h.1.valid hfits
  apart := by
    rintro t t' r e isWrite ht ht' ⟨-, hlate, h⟩ ⟨-, -, h'⟩
    obtain he : e.toInt = t := by simpa using h
    rcases h' with he' | ⟨-, he'⟩
    · rw [show t' = t by omega]
    · omega

/-! ### Blocks -/

/-- The place of each thread in the blocks, as it knows it. -/
structure BlockVars (G : Squad) (τ : Nat → Scope) (ids : BlockIds) (count : Int64) : Prop where
  block : ∀ t < G.size, τ t ids.block = some (.i64 (Int64.ofNat (t / 32)))
  inBlock : ∀ t < G.size, τ t ids.inBlock = some (.i64 (Int64.ofNat (t % 32)))
  inBounds : ∀ t < G.size, τ t ids.inBounds = some (.bool (decide ((t : Int) < count.toInt)))

theorem BlockVars.mono {τ' : Nat → Scope} {ids : BlockIds} {count : Int64} (h : BlockVars G τ ids count)
    (hle : ∀ t < G.size, (τ t).Le (τ' t)) : BlockVars G τ' ids count where
  block t ht := hle t ht _ _ (h.block t ht)
  inBlock t ht := hle t ht _ _ (h.inBlock t ht)
  inBounds t ht := hle t ht _ _ (h.inBounds t ht)

omit hfits

/-- The place of each thread in the blocks becomes known. -/
theorem blocks_known (hG : G.Regular) (w : Exp) : Fresh.At n (BlockIds.declare c.launch w) fun m r => m = n + 3 ∧
    ∀ (τ : Nat → Scope) place (count : Int64), c.Ready G τ n place → (∀ t < G.size, w.eval (τ t) = .ok (.i64 count)) →
      ∃ σ : Nat → Scope, (∀ R : G.Rights, G.Leads (Respected R) τ r.2 (Respected R) σ) ∧ c.Ready G σ (n + 3) place ∧
        (∀ t < G.size, (τ t).Le (σ t)) ∧ BlockVars G σ r.1 count := by
  refine .take (.take (.take (.pure ⟨rfl, ?_⟩)))
  intro τ place count hready hw
  have hsize := hG.size_lt
  let σ₁ : Nat → Scope := fun t => (τ t).set (numbered "block_id" n) (.i64 (Int64.ofNat (t / 32)))
  let σ₂ : Nat → Scope := fun t => (σ₁ t).set (numbered "in_block_id" (n + 1)) (.i64 (Int64.ofNat (t % 32)))
  let σ₃ : Nat → Scope := fun t =>
    (σ₂ t).set (numbered "ltid_in_bounds" (n + 2)) (.bool (decide ((t : Int) < count.toInt)))
  have hready₁ : c.Ready G σ₁ (n + 1) place := hready.set (by decide)
  have hready₂ : c.Ready G σ₂ (n + 2) place := hready₁.set (by decide)
  have le₁ : ∀ t < G.size, (τ t).Le (σ₁ t) := hready.le_set (by decide)
  have le₂ : ∀ t < G.size, (σ₁ t).Le (σ₂ t) := hready₁.le_set (by decide)
  have le₃ : ∀ t < G.size, (σ₂ t).Le (σ₃ t) := hready₂.le_set (by decide)
  have hblock : ∀ t, σ₁ t (numbered "block_id" n) = some (.i64 (Int64.ofNat (t / 32))) := fun t => Scope.set_self
  have hin : ∀ t, σ₂ t (numbered "in_block_id" (n + 1)) = some (.i64 (Int64.ofNat (t % 32))) := fun t => Scope.set_self
  have le₂₃ : ∀ t < G.size, (σ₁ t).Le (σ₃ t) := fun t ht => (le₂ t ht).trans (le₃ t ht)
  -- The three declarations, each over what the ones before it have bound.
  refine ⟨σ₃, fun R => ?_, hready₂.set (by decide), fun t ht => (le₁ t ht).trans (le₂₃ t ht), ?_, ?_, ?_⟩
  · have declareBlock : G.Leads (Respected R) τ (.declareInit (numbered "block_id" n) .i64
        (c.launch.ltid / .int scanBlockSize)) (Respected R) σ₁ :=
      hready.declares (by decide) .i64 fun t ht => by
        rw [← ofNat_div (by omega) (by omega)]
        exact Exp.eval_div (hready.localId t ht) (Exp.eval_int scanBlockSize) (by decide)
    have declareIn : G.Leads (Respected R) σ₁ (.declareInit (numbered "in_block_id" (n + 1)) .i64
        (c.launch.ltid - .var (numbered "block_id" n) * .int scanBlockSize)) (Respected R) σ₂ :=
      hready₁.declares (by decide) .i64 fun t ht => by
        rw [← ofNat_sub_div_mul]
        exact Exp.eval_sub (hready₁.localId t ht) (Exp.eval_mul (Exp.eval_var (hblock t)) (Exp.eval_int scanBlockSize))
    have declareBounds : G.Leads (Respected R) σ₂ (.declareInit (numbered "ltid_in_bounds" (n + 2)) .bool
        (c.launch.ltid.lt w)) (Respected R) σ₃ :=
      hready₂.declares (by decide) .bool fun t ht => by
        rw [← toInt_ofNat (show t < 2 ^ 63 by omega)]
        exact Exp.IsBool.lt (Exp.isInt_of_eval (hready₂.localId t ht))
          (Exp.isInt_of_eval (Exp.eval_mono ((le₁ t ht).trans (le₂ t ht)) (hw t ht)))
    exact (declareBlock.andThen (declareIn.andThen declareBounds.single)).block
  · exact fun t ht => le₂₃ t ht _ _ (hblock t)
  · exact fun t ht => le₃ t ht _ _ (hin t)
  · exact fun t ht => Scope.set_self

/-! ### Steps -/

variable {σ : Scope} {skip inBlock active : Exp} {k t : Nat}

/-- The steps of a block end when their distance is as large as the block. -/
theorem skip_isBool (hk : k ≤ 5) (hskip : skip.eval σ = .ok (.i64 (Int64.ofNat (2 ^ k)))) :
    Exp.IsBool σ (skip.lt (.int scanBlockSize)) (decide (k < 5)) := by
  have htest := Exp.IsBool.lt (Exp.isInt_of_eval hskip) (.int scanBlockSize)
  have hpow : 2 ^ k < 2 ^ 63 := Nat.pow_lt_pow_right (by omega) (by omega)
  have hiff : (Int64.ofNat (2 ^ k)).toInt < scanBlockSize.toInt ↔ k < 5 := by
    rw [toInt_ofNat hpow, show scanBlockSize.toInt = (2 ^ 5 : Nat) from rfl, Int.ofNat_lt,
      Nat.pow_lt_pow_iff_right (by omega)]
  rwa [decide_eq_decide.mpr hiff] at htest

/-- A thread that takes part in a step takes in an element of its own block. -/
theorem earlier_of_takesPart (hk : k < 5) (hskip : skip.eval σ = .ok (.i64 (Int64.ofNat (2 ^ k))))
    (hin : inBlock.eval σ = .ok (.i64 (Int64.ofNat (t % 32)))) (hmay : May σ ((skip.le inBlock).both active)) :
    (t - 2 ^ k) / 32 = t / 32 ∧ Int64.ofNat t = Int64.ofNat (t - 2 ^ k) + Int64.ofNat (2 ^ k) := by
  have hpow : 2 ^ k < 2 ^ 5 := Nat.pow_lt_pow_right (by omega) hk
  have hpos : 0 < 2 ^ k := Nat.pow_pos (by omega)
  have hskipped := hmay.both.1.le hskip hin
  rw [toInt_ofNat (by omega), toInt_ofNat (by omega)] at hskipped
  refine ⟨by omega, ?_⟩
  rw [← Int64.ofNat_add, Nat.sub_add_cancel (by omega)]

/-- The last thread of a block has a number in it that ends the block. -/
theorem last_of_may {ids : BlockIds} (hin : σ ids.inBlock = some (.i64 (Int64.ofNat (t % 32))))
    (h : May σ (ids.isLastInBlock.both active)) : t % 32 = 31 := by
  have hlast := congrArg Int64.toInt (h.both.1.equals (Exp.eval_var hin) (Exp.eval_int (scanBlockSize - 1)))
  rw [toInt_ofNat (by omega), show (scanBlockSize - 1).toInt = 31 from rfl] at hlast
  omega

/-- Whether a thread belongs to the first block. -/
theorem firstBlock_isBool {ids : BlockIds} (ht : t < 2 ^ 63)
    (hblock : σ ids.block = some (.i64 (Int64.ofNat (t / 32)))) :
    Exp.IsBool σ ids.isFirstBlock (decide (t < 32)) := by
  have hfirst := Exp.IsBool.equals (Exp.isInt_of_eval (Exp.eval_var hblock)) (.int 0)
  have hiff : (Int64.ofNat (t / 32)).toInt = (0 : Int64).toInt ↔ t < 32 := by
    rw [toInt_ofNat (by omega), Int64.toInt_zero]
    omega
  rwa [decide_eq_decide.mpr hiff] at hfirst

/-- The number of the block before. -/
theorem ofNat_block (h : 32 ≤ t) : Int64.ofNat (t / 32) = Int64.ofNat (t / 32 - 1) + 1 := by
  rw [show (1 : Int64) = Int64.ofNat 1 from rfl, ← Int64.ofNat_add, Nat.sub_add_cancel (by omega)]

/-! ## Rows

The scan of rows does not race. What a step makes goes to the second region, and only after a barrier
back to the first one. -/
open Watch Squad

variable {c : Collective} {G : Squad} {τ : Nat → Scope} {n : Nat} {place : Site}

/-- Code that reads a cell and writes one. -/
def Copies (c : Collective) (n : Nat) (dest source : Cell) (code : Stmt) : Prop :=
  ∀ (W : Watch) (R : W.Rights) t σ, σ.Before n → c.LanesKnown σ → c.GrantsCell W R t σ source false →
    c.GrantsCell W R t σ dest true → W.Obeys R t σ [code] σ

/-- A thread may do anything with its own element. -/
theorem grants_own (hG : G.Regular) (hfits : place.Fits 3 G.size) (hready : c.Ready G τ n place) {t : Nat}
    (ht : t < G.size) {region : Int64} (hr : 0 ≤ region.toInt) (hr' : region.toInt < 3) (isWrite : Bool) :
    c.GrantsCell G.toWatch (ownRights hfits).rights t (τ t) ⟨region, c.launch.ltid⟩ isWrite := by
  have hsize := hG.size_lt
  exact (hready.lies t ht).grantsCell_of_may hready.watched (hready.localId t ht)
    ⟨⟨hr, hr', within_ofNat (by omega) ht⟩, toInt_ofNat (by omega)⟩

/-- Copying between the regions of a thread's own element. -/
theorem copyOwn_leads (hG : G.Regular) (hfits : place.Fits 3 G.size) (hready : c.Ready G τ n place) {active : Exp}
    {dest source : Int64} (hd : 0 ≤ dest.toInt) (hd' : dest.toInt < 3) (hs : 0 ≤ source.toInt) (hs' : source.toInt < 3)
    {code : Stmt} (hcode : c.Copies n ⟨dest, c.launch.ltid⟩ ⟨source, c.launch.ltid⟩ code) :
    G.Leads (Respected (ownRights hfits).rights) τ (.when active code) (Respected (ownRights hfits).rights) τ :=
  leads_of_obeys fun t ht => .when fun _ => hcode _ _ t _ (hready.before t ht) (hready.lies t ht).lanesKnown
    (grants_own hG hfits hready ht hs hs' false) (grants_own hG hfits hready ht hd hd' true)

/-- The scan of each block does not race, whichever threads take part. -/
theorem scanRowBlocks_leads (hG : G.Regular) (test : Option SegmentTest) (ids : BlockIds) (active : Exp) :
    Fresh.At n (c.scanRowBlocks test ids active) fun _ code =>
      ∀ (τ : Nat → Scope) place count, place.Fits 3 G.size → c.Ready G τ n place → BlockVars G τ ids count →
        G.Leads G.Settled τ code G.Settled τ := by
  refine .take ?_
  refine (combine_obeys ..).bind fun m₁ step hm₁ hstep => ?_
  refine (copy_obeys ..).bind fun m₂ commit hm₂ hcommit => .pure fun τ place count hfits hready hids => ?_
  have hsize := hG.size_lt
  let skip : Ident := numbered "skip_threads" n
  let σ : Nat → Nat → Scope := fun k t => (τ t).set skip (.i64 (Int64.ofNat (2 ^ k)))
  let staging : LogClaim := Respected (stageRights hfits).rights
  have hready' : ∀ k, c.Ready G (σ k) (n + 1) place := fun k => hready.set (by decide)
  have hle : ∀ k, ∀ t < G.size, (τ t).Le (σ k t) := fun k => hready.le_set (by decide)
  have hskipVar : ∀ k t, (Exp.var skip).eval (σ k t) = .ok (.i64 (Int64.ofNat (2 ^ k))) := fun k t =>
    Exp.eval_var Scope.set_self
  -- In a step a thread reads its own element and an earlier one, and writes only to its staging place.
  have stage : ∀ k < 5, G.Leads staging (σ k) (.when (((Exp.var skip).le (.var ids.inBlock)).both active) step) staging
    (σ k) := by
    refine fun k hk => leads_of_obeys fun t ht => .when fun hmay => ?_
    have main : ∀ e < G.size, InRegions G 3 0 (Int64.ofNat e) := fun e he =>
      inRegions_ofNat (by decide) (by decide) (by omega) he
    have temp : InRegions G 3 1 (Int64.ofNat t) := inRegions_ofNat (by decide) (by decide) (by omega) ht
    obtain ⟨-, hsplit⟩ := earlier_of_takesPart hk (hskipVar k t)
      (Exp.eval_mono (hle k t ht) (Exp.eval_var (hids.inBlock t ht))) hmay
    have lies := (hready' k).lies t ht
    have own := (hready' k).localId t ht
    have hsub := Exp.eval_sub own (hskipVar k t)
    rw [hsplit, Int64.add_sub_cancel] at hsub
    exact hstep _ _ t _ ((hready' k).before t ht) lies.lanesKnown
      (lies.grantsCell_of_may hready.watched hsub ⟨main _ (Nat.lt_of_le_of_lt (Nat.sub_le t _) ht), Or.inl ⟨rfl, rfl⟩⟩)
      (lies.grantsCell_of_may hready.watched own ⟨main t ht, Or.inl ⟨rfl, rfl⟩⟩)
      (lies.grantsCell_of_may hready.watched own ⟨temp, Or.inr ⟨rfl, toInt_ofNat (by omega)⟩⟩)
  have put : ∀ k, G.Leads (Respected (ownRights hfits).rights) (σ k)
      (.when (((Exp.var skip).le (.var ids.inBlock)).both active) commit) (Respected (ownRights hfits).rights) (σ k) :=
        fun k =>
    copyOwn_leads hG hfits ((hready' k).later hm₁) (by decide) (by decide) (by decide) (by decide) hcommit
  have next : ∀ k, G.Leads G.Settled (σ k) (.set skip (.var skip * .int 2)) G.Settled (σ (k + 1)) := fun k =>
    leads_of_obeys fun t _ => double_obeys (τ t) skip k
  have sound : ∀ {R : G.Rights} log, Respected R log → G.Sound log := fun _ hl => hl.sound
  have steps : G.Leads G.Settled (σ 0) (.repeatWhile ((Exp.var skip).lt (.int scanBlockSize)) <| .block [
      .when (((Exp.var skip).le (.var ids.inBlock)).both active) step,
      .barrier .global,
      .when (((Exp.var skip).le (.var ids.inBlock)).both active) commit,
      .barrier .global,
      .set skip (.var skip * .int 2)]) G.Settled τ := by
    refine leads_repeatWhile (L := fun _ => G.Settled) (τ := σ) (p := fun k => k ≤ 5) (b := fun k => decide (k < 5))
      ?_ ?_ ?_ (by omega)
    · exact fun k hk t _ => skip_isBool hk (hskipVar k t)
    · intro k hk hlt
      have hlt : k < 5 := of_decide_eq_true hlt
      exact ⟨hlt, ((stage k hlt).start.andThen ((leads_barrier .global sound).andThen ((put k).andThen
        ((leads_barrier .global sound).andThen (next k).single)))).block⟩
    · exact fun k _ _ => ⟨fun _ hl => hl, hle k⟩
  have declareSkip : G.Leads G.Settled τ (.declareInit skip .i64 (.int 1)) G.Settled (σ 0) :=
    hready.declares (by decide) .i64 fun _ _ => rfl
  exact (declareSkip.andThen steps.single).block

/-! ### The whole scan -/

/-- The last thread of each block gives its element away. -/
theorem publishRow_leads (hG : G.Regular) (hfits : place.Fits 3 G.size) (hready : c.Ready G τ n place) {ids : BlockIds}
    {count : Int64} (hids : BlockVars G τ ids count) (active : Exp) {code : Stmt}
    (hcode : c.Copies n (tempCell (.var ids.block)) (mainCell c.launch.ltid) code) :
    G.Leads (Respected (publishRights hfits 1).rights) τ (.when (ids.isLastInBlock.both active) code)
      (Respected (publishRights hfits 1).rights) τ := by
  refine leads_of_obeys fun t ht => .when fun hmay => ?_
  have hsize := hG.size_lt
  have lies := hready.lies t ht
  have hlast := last_of_may (hids.inBlock t ht) hmay
  have main : InRegions G 3 0 (Int64.ofNat t) := inRegions_ofNat (by decide) (by decide) (by omega) ht
  have temp : InRegions G 3 1 (Int64.ofNat (t / 32)) := inRegions_ofNat (by decide) (by decide) (by omega) (by omega)
  exact hcode _ _ t _ (hready.before t ht) lies.lanesKnown
    (lies.grantsCell_of_may hready.watched (hready.localId t ht) ⟨main, Or.inl ⟨rfl, rfl, by decide⟩⟩)
    (lies.grantsCell_of_may hready.watched (Exp.eval_var (hids.block t ht))
      ⟨temp, Or.inr ⟨rfl, hlast, toInt_ofNat (by omega)⟩⟩)

/-- The threads after the first block take in the total of the blocks before. -/
theorem carryRow_leads (hG : G.Regular) (hlimit : G.size ≤ 1024) (hfits : place.Fits 3 G.size)
    (hready : c.Ready G τ n place) {ids : BlockIds} {count : Int64} (hids : BlockVars G τ ids count) (active : Exp)
    {code : Stmt} (hcode : ∀ (W : Watch) (R : W.Rights) t σ, σ.Before n → c.LanesKnown σ →
      c.GrantsCell W R t σ (mainCell (.var ids.block - .int 1)) false →
        c.GrantsCell W R t σ (mainCell c.launch.ltid) false →
        c.GrantsCell W R t σ (mainCell c.launch.ltid) true → W.Obeys R t σ [code] σ) :
    G.Leads (Respected (carryRights hfits hlimit).rights) τ (.when (ids.isFirstBlock.negation.both active) code)
      (Respected (carryRights hfits hlimit).rights) τ := by
  refine leads_of_obeys fun t ht => .when fun hmay => ?_
  have hsize := hG.size_lt
  have lies := hready.lies t ht
  have hlate : 32 ≤ t := by
    have := hmay.both.1.isBool (firstBlock_isBool (by omega) (hids.block t ht)).negation
    simpa using this
  have main : ∀ e < G.size, InRegions G 3 0 (Int64.ofNat e) := fun e he =>
    inRegions_ofNat (by decide) (by decide) (by omega) he
  have hblock := Exp.eval_sub (Exp.eval_var (hids.block t ht)) (Exp.eval_int 1)
  rw [ofNat_block hlate, Int64.add_sub_cancel] at hblock
  have own : ∀ isWrite, (carryRights hfits hlimit).may t 0 (Int64.ofNat t) isWrite := fun _ =>
    ⟨main t ht, hlate, Or.inl (toInt_ofNat (by omega))⟩
  have before : (carryRights hfits hlimit).may t 0 (Int64.ofNat (t / 32 - 1)) false := by
    refine ⟨main _ (by omega), hlate, Or.inr ⟨rfl, ?_⟩⟩
    rw [toInt_ofNat (by omega)]
    omega
  exact hcode _ _ t _ (hready.before t ht) lies.lanesKnown (lies.grantsCell_of_may hready.watched hblock before)
    (lies.grantsCell_of_may hready.watched (hready.localId t ht) (own false))
    (lies.grantsCell_of_may hready.watched (hready.localId t ht) (own true))

/-- A scan of rows that starts after a barrier does not race. -/
theorem scanRows_leads (hG : G.Regular) (hlimit : G.size ≤ 1024) (test : Option SegmentTest) (w : Exp) :
    Fresh.At n (c.scanRows test w) fun _ code =>
      ∀ (τ : Nat → Scope) place (count : Int64), place.Fits 3 G.size → c.Ready G τ n place →
        (∀ t < G.size, w.eval (τ t) = .ok (.i64 count)) → G.Leads G.Settled τ code G.Settled τ := by
  refine (blocks_known hG w).bind fun m₀ r _ => ?_
  rintro ⟨rfl, hblocks⟩
  refine (scanRowBlocks_leads hG test r.1 _).bind fun m₁ blockScan hm₁ hblock => ?_
  refine (copy_obeys ..).bind fun m₂ save hm₂ hsave => ?_
  refine (copy_obeys ..).bind fun m₃ publish hm₃ hpublish => ?_
  refine (copy_obeys ..).bind fun m₄ gather hm₄ hgather => ?_
  refine (scanRowBlocks_leads hG _ r.1 _).bind fun m₅ carryScan hm₅ hcarry => ?_
  refine (combine_obeys ..).bind fun m₆ carryIn hm₆ hcarryIn => ?_
  refine (copy_obeys ..).bind fun m₇ restore hm₇ hrestore => .pure fun τ place count hfits hready hw => ?_
  obtain ⟨σ, declareIds, hready, hle, hids⟩ := hblocks τ place count hready hw
  have own : ∀ {m active dest source code}, n + 3 ≤ m → 0 ≤ dest.toInt → dest.toInt < 3 → 0 ≤ source.toInt →
      source.toInt < 3 → c.Copies m ⟨dest, c.launch.ltid⟩ ⟨source, c.launch.ltid⟩ code →
        G.Leads G.Settled σ (.when active code) (Respected (ownRights hfits).rights) σ := fun hm hd hd' hs hs' hcode =>
    (copyOwn_leads hG hfits (hready.later hm) hd hd' hs hs' hcode).start
  have barrier : ∀ {R : G.Rights}, G.Leads (Respected R) σ (.barrier .global) G.Settled σ :=
    leads_barrier .global fun _ hl => hl.sound
  have publishes := publishRow_leads hG hfits (hready.later (by omega)) hids (.var r.1.inBounds) hpublish
  have carries := carryRow_leads hG hlimit hfits (hready.later (by omega)) hids (.var r.1.inBounds) hcarryIn
  -- Between two barriers each stage keeps to rights of its own.
  refine (LeadsAll.block (?_ : G.LeadsAll G.Settled τ _ G.Settled σ)).forget hle
  exact (declareIds _).andThen <| (hblock σ place count hfits hready hids).andThen <|
    ((own hm₁ (by decide) (by decide) (by decide) (by decide) hsave).comment _).andThen <| barrier.andThen <|
    (publishes.start.comment _).andThen <| barrier.andThen <|
    (own (by omega) (by decide) (by decide) (by decide) (by decide) hgather).andThen <| barrier.andThen <|
    ((hcarry σ place count hfits (hready.later (by omega)) hids).comment _).andThen <|
      (carries.start.comment _).andThen <| barrier.andThen <|
    ((own (by omega) (by decide) (by decide) (by decide) (by decide) hrestore).comment _).andThen barrier.single

end SegKernel.Collective
