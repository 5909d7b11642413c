import SegKernel.Proofs.Collectives.ScalarBlocks

/-! The scan of scalars combines the elements of each segment in their order. While the totals of the blocks
    are scanned, they lie where the first elements belong, which are held in registers. -/

namespace SegKernel.Collective
open Exp Team Solo

variable {c : Collective} {A : c.Area} {G : Team} {op : c.lambda.Tuple → c.lambda.Tuple → c.lambda.Tuple}
  {B : Nat → Scope} {n k cnt : Nat} {own : Nat → Memory} {m₀ : Store} {f : c.Contents} {b : Int64} {base : Exp}
  {ids : BlockIds} {crosses : Nat → Nat → Bool} {test : Option SegmentTest} {xs ys : List Ident} {apply : Stmt}

/-! ### The whole scan -/

/-- The elements after the scan of the blocks. -/
def blockScanned (op : c.lambda.Tuple → c.lambda.Tuple → c.lambda.Tuple) (crosses : Nat → Nat → Bool) (cnt : Nat)
    (f : c.Contents) (l : Nat) : Nat → c.lambda.Tuple :=
  scanBlocksOf op crosses (fun t => decide (t < cnt)) fun e => f 0 e l

/-- The elements when the totals of the blocks have taken the places of the first ones. -/
def published (op : c.lambda.Tuple → c.lambda.Tuple → c.lambda.Tuple) (crosses : Nat → Nat → Bool) (cnt : Nat)
    (f : c.Contents) (l e : Nat) : c.lambda.Tuple :=
  if 32 * e + 31 < cnt then blockScanned op crosses cnt f l (32 * e + 31) else blockScanned op crosses cnt f l e

/-- The totals after the scan of the first block. -/
def totals (op : c.lambda.Tuple → c.lambda.Tuple → c.lambda.Tuple) (crosses : Nat → Nat → Bool) (cnt : Nat)
    (f : c.Contents) (l : Nat) : Nat → c.lambda.Tuple :=
  scanBlocksOf op (fun i j => crosses (32 * i + 31) (32 * j + 31)) (fun t => decide (t < 32) && decide (t < cnt))
    (published op crosses cnt f l)

/-- The elements after the whole scan. -/
def scanResult (op : c.lambda.Tuple → c.lambda.Tuple → c.lambda.Tuple) (crosses : Nat → Nat → Bool) (cnt : Nat)
    (f : c.Contents) :
    c.Contents :=
  fun _ e l => carryIn op crosses (blockScanned op crosses cnt f l) (totals op crosses cnt f l) e

/-- The whole scan is made of the scans of all blocks and of their totals. -/
theorem scanResult_eq_carryIn (l e : Nat) : scanResult op crosses cnt f 0 e l =
    carryIn op crosses (fun e => scanned op crosses (fun t => decide (t < cnt)) f 5 0 e l)
      (fun e => scanned op (fun i j => crosses (32 * i + 31) (32 * j + 31))
        (fun t => decide (t < 32) && decide (t < cnt))
        (fun _ e l => if 32 * e + 31 < cnt then scanned op crosses (fun t => decide (t < cnt)) f 5 0 (32 * e + 31) l
          else scanned op crosses (fun t => decide (t < cnt)) f 5 0 e l) 5 0 e l) e := by
  simp only [scanned_first]
  rfl

/-- The scan combines what lies in a segment before an element. -/
theorem scanResult_eq (hop : Std.Associative op) {start : Nat → Nat} (hstart : Segmentation start)
    (hfinds : Finds crosses start cnt) (hcnt : cnt ≤ 1024) {e : Nat} (he : e < cnt) (l : Nat) :
    scanResult op crosses cnt f 0 e l = foldSpan op (fun e => f 0 e l) (start e) e := by
  refine carryIn_eq cnt hop hstart hfinds (fun t ht => decide_eq_true ht) (fun i j hij hj => ?_)
    (fun j hj => ?_) hcnt (fun j hj => ?_) he
  · rw [hfinds _ _ (by omega) (by omega), decide_eq_decide]
    show 32 * i + 31 < start (32 * j + 31) ↔ i < start (32 * j + 31) / 32
    omega
  · rw [decide_eq_true (show j < 32 by omega), decide_eq_true (show j < cnt by omega)]
    rfl
  · rw [published, if_pos (by omega)]
    rfl

section Whole
variable {cond index : Exp} {part : Nat → Bool} {d : Nat → Nat} {v : Nat → c.lambda.Tuple} {f' : c.Contents}

variable (part d v) in
/-- Some threads store what they hold in registers. -/
theorem does_storeRegisters (hoff : G.ctx.checkRaces = false) (hplace : A.place = .shared b)
    (hzero : ∀ r e, A.has r e → r = 0) (volatile : Bool) (hcond : ∀ t < G.size, IsBool (B t) cond (part t))
    (hindex : ∀ t < G.size, part t = true → index.eval (B t) = .ok (.i64 (b + Int64.ofNat (d t))) ∧ A.has 0 (d t))
    (hinj : ∀ t < G.size, ∀ t' < G.size, part t = true → part t' = true → d t = d t' → t = t')
    (hxs : ∀ t < G.size, part t = true → (B t).Sees xs (v t).1)
    (hstored : ∀ t < G.size, part t = true → f' 0 (d t) 0 = v t)
    (hkept : ∀ e, A.has 0 e → (∀ t < G.size, part t = true → d t ≠ e) → f' 0 e 0 = f 0 e 0) :
    G.Does A.covers (G.Knows B own) (A.Filled m₀ f)
      (.when cond (writeAll (c.views.map (·.withVolatile volatile)) xs index))
      (G.Knows B own) (A.Filled m₀ f') := by
  have hlane := Area.laneCount_of_shared hplace
  refine Area.does_stores part (fun t => (0, d t)) (fun t _ => v t) hoff
    (fun t ht hp => (hindex t ht hp).2) (fun t ht t' ht' hp hp' e => hinj t ht t' ht' hp hp' (congrArg Prod.snd e))
    (fun m hm t ht th hth => ?_) (fun t ht hp l hl => ?_) fun r e hhas hother l hl => ?_
  · refine ensures_when ((hcond t ht).mono hth.1) (fun hp => ?_) fun hp =>
      ⟨hth, by rw [if_neg (by rw [hp]; exact Bool.false_ne_true)]⟩
    exact Area.ensures_writeAll volatile hplace (hindex t ht hp).2 hm rfl hth.1 (hindex t ht hp).1 (fun _ => v t)
      ((hxs t ht hp).mono hth.1)
      (fun p hslot => own_among ⟨ht, hp, 0, by omega, hslot⟩) ⟨hth, by rw [if_pos hp]⟩
  · obtain rfl : l = 0 := by omega
    exact hstored t ht hp
  · obtain rfl : l = 0 := by omega
    obtain rfl := hzero r e hhas
    exact hkept e hhas fun t ht hp e' => hother t ht hp (Prod.ext rfl e')

variable (own m₀) in
/-- The last thread of each block publishes its result. -/
theorem does_publish (hoff : G.ctx.checkRaces = false) (hplace : A.place = .shared b)
    (hhas : ∀ r e, A.has r e ↔ r = 0 ∧ e < cnt) (hbase : ∀ t < G.size, base.eval (B t) = .ok (.i64 b))
    (hcnt : cnt ≤ G.size) (hids : Blocked G B ids cnt) (hxs : ∀ t < G.size, t < cnt → (B t).Sees xs (f 0 t 0).1) :
    G.Does A.covers (G.Knows B own) (A.Filled m₀ f)
      (.when (ids.isLastInBlock.both (.var ids.inBounds))
        (writeAll (c.views.map View.uncached) xs (base + .var ids.block)))
      (G.Knows B own) (A.Filled m₀ fun _ e l => if 32 * e + 31 < cnt then f 0 (32 * e + 31) l else f 0 e l) := by
  have takes : ∀ {t}, (decide (t % 32 = 31) && decide (t < cnt)) = true → t % 32 = 31 ∧ t < cnt := fun hp => by
    simpa only [Bool.and_eq_true, decide_eq_true_eq] using hp
  refine does_storeRegisters (fun t => decide (t % 32 = 31) && decide (t < cnt)) (· / 32) (f 0 · 0) hoff hplace
    (fun r e h => ((hhas r e).mp h).1) true
    (fun t ht => (lastInBlock_isBool (hids.inBlock t ht)).both fun _ => eval_var (hids.inBounds t ht))
      (fun t ht hp => ?_)
    (fun t _ t' _ hp hp' h => ?_) (fun t ht hp => hxs t ht (takes hp).2) (fun t _ hp => ?_) fun e he hother => ?_
  · have := takes hp
    exact ⟨eval_add (hbase t ht) (eval_var (hids.block t ht)), (hhas 0 _).mpr ⟨rfl, by omega⟩⟩
  · have := takes hp
    have := takes hp'
    omega
  · have := takes hp
    rw [show 32 * (t / 32) + 31 = t by omega, if_pos this.2]
  · refine if_neg fun hlt => hother (32 * e + 31) (by omega) ?_ (by omega)
    rw [decide_eq_true hlt, decide_eq_true (show (32 * e + 31) % 32 = 31 by omega)]
    rfl

end Whole

/-- The code with which a thread combines a total with what it holds, or drops the total where a segment
    starts. -/
def combineCarry (c : Collective) (test : Option SegmentTest) (ids : BlockIds) (carry inactive : Ident)
    (xs ys : List Ident) (apply : Stmt) : Stmt :=
  match test with
  | none => .when (Exp.var carry).negation apply
  | some test => .block [
    .declareInit inactive .bool
      ((Exp.var carry).negation.both (test (.var ids.block * .int scanBlockSize - .int 1) c.launch.ltid)),
    .when (.var inactive) (setAll xs ys),
    .when ((Exp.var carry).negation.both (Exp.var inactive).negation) apply]

/-- A thread takes in the total of the blocks before its own. -/
structure CarriesScalars (A : c.Area) (G : Team) (op : c.lambda.Tuple → c.lambda.Tuple → c.lambda.Tuple)
    (B C : Nat → Scope) (m : Nat) (test : Option SegmentTest) (base : Exp) (ids : BlockIds) (b : Int64) (cnt : Nat)
    (crosses : Nat → Nat → Bool) (xs ys : List Ident) (carry : Ident) (v : Nat → c.lambda.Tuple) : Prop where
  manned : A.Manned G op B m
  place : A.place = .shared b
  has : ∀ r e, A.has r e ↔ r = 0 ∧ e < cnt
  size : cnt ≤ G.size
  bounded : G.size ≤ 1024
  base : ∀ t < G.size, base.eval (B t) = .ok (.i64 b)
  blocked : Blocked G B ids cnt
  tells : ∀ t < G.size, TellsSegments test (B t) 1024 crosses
  operands : ∀ t < G.size, (B t).Operands m xs ys
  carry : ∀ t < G.size, B t carry = some (.bool (!(decide (32 ≤ t) && decide (t < cnt))))
  le : ∀ t < G.size, (B t).Le (C t)
  before : ∀ t < G.size, (C t).Before m
  left : ∀ t < G.size, t < cnt → (C t).Sees xs (v t).1
  right : ∀ t < G.size, ∃ y : c.lambda.Tuple, (C t).Sees ys y.1
  free : ∀ x, x ∈ xs ∨ x ∈ ys → G.ctx.captured[x]? = none

namespace CarriesScalars
variable {C : Nat → Scope} {m : Nat} {carry : Ident} {v : Nat → c.lambda.Tuple}
  (h : CarriesScalars A G op B C m test base ids b cnt crosses xs ys carry v)
include h

/-- Whether a thread has something to take in. -/
theorem hasCarry {σ : Scope} {t : Nat} (ht : t < G.size) (hσ : (B t).Le σ) :
    IsBool σ (Exp.var carry).negation (decide (32 ≤ t) && decide (t < cnt)) := by
  have hcarry := IsBool.negation (eval_var (hσ _ _ (h.carry t ht)))
  rwa [Bool.not_not] at hcarry

/-- A thread that takes in a total. -/
theorem ensures_carry {E : Solo} {th : Thread} {Q : Claim} {t : Nat} (hE : E.ctx = G.ctx) (hm : A.Filled m₀ f E.store)
    (ht : t < G.size) (hpart : 32 ≤ t ∧ t < cnt) (happly : Applies c.lambda m xs ys apply) (hk : m ≤ k)
    (hC : (C t).Le (E.scope th))
    (hkeeps : ∀ p, A.slots 0 (t / 32 - 1) 0 p → E.Keeps p) (hown : ∀ p, A.slots 0 t 0 p → E.own E.id p)
    (hQ : ∀ th', (B t).Le (E.scope th') → th'.arrays = th.arrays →
      Q th' (A.writes 0 t fun _ => if crosses (t / 32 * 32 - 1) t then v t else op (f 0 (t / 32 - 1) 0) (v t))) :
    E.EnsuresAll [
      .when (Exp.var carry).negation <| .block [
        setAll ys xs, readAll (c.views.map View.uncached) xs (base + .var ids.block - .int 1)],
      c.combineCarry test ids carry (numbered "inactive" k) xs ys apply,
      .when (Exp.var carry).negation (writeAll c.views xs (base + c.launch.ltid))] Q th [] := by
  obtain ⟨y, hy⟩ := h.right t ht
  have hops := h.operands t ht
  have hleft : ∀ x ∈ xs, E.Free x := fun x hx => by
    rw [Solo.Free, hE]
    exact h.free x (.inl hx)
  have hright : ∀ x ∈ ys, E.Free x := fun x hx => by
    rw [Solo.Free, hE]
    exact h.free x (.inr hx)
  have hlane : 0 < A.place.laneCount := by rw [Area.laneCount_of_shared h.place]; omega
  have hhas : A.has 0 t := (h.has 0 t).mpr ⟨rfl, hpart.2⟩
  have hhas' : A.has 0 (t / 32 - 1) := (h.has 0 _).mpr ⟨rfl, by omega⟩
  have takes : ∀ {σ : Scope}, (B t).Le σ → IsBool σ (Exp.var carry).negation true := fun hσ => by
    have := h.hasCarry ht hσ
    rwa [decide_eq_true hpart.1, decide_eq_true hpart.2] at this
  have hholds : (B t).Holds xs ys (v t).1 y.1 (E.scope th) :=
    ⟨(h.le t ht).trans hC, (h.left t ht hpart.2).mono hC, hy.mono hC⟩
  have hindex : IsInt (B t) (base + .var ids.block - .int 1) (A.position 0 (t / 32 - 1) 0) := by
    refine Area.isInt_of_shared h.place hhas' ?_
    have := eval_sub (eval_add (h.base t ht) (eval_var (h.blocked.block t ht))) (eval_int 1)
    rwa [ofNat_block hpart.1, ← Int64.add_assoc, Int64.add_sub_cancel] at this
  rw [ensuresAll_cons, ensuresAll_cons, ensuresAll_singleton]
  refine ensures_when ((takes (.refl _)).mono hholds.known) (fun _ => ?_) fun h => Bool.noConfusion h
  rw [ensures_block, ensuresAll_cons, ensuresAll_singleton]
  refine ensures_setAll hops.rightNodup hops.rightOld hright hops.apart hholds.right hholds.left
    (y.2.trans (v t).2.symm)
    fun th₁ hth₁ ha₁ => ?_
  have hholds₁ := hops.setRight hholds hth₁
  refine ensures_readAll hholds₁.known hops.leftUnknown hindex hops.leftNodup hops.leftOld hleft hholds₁.left
    ((hm.holds hhas' hlane).withVolatile true) (fun p hp => hkeeps p ((tupleSlots_withVolatile true _ _ _).mp hp))
    ((v t).2.trans (f 0 (t / 32 - 1) 0).2.symm) fun th₂ hth₂ ha₂ => ?_
  have hholds₂ := hops.setLeft hholds₁ hth₂
  -- The code that is left stores what the thread holds then.
  have store : ∀ (x : c.lambda.Tuple) {th₃ : Thread}, (B t).Holds xs ys x.1 (v t).1 (E.scope th₃) →
    th₃.arrays = th₂.arrays →
      x = (if crosses (t / 32 * 32 - 1) t then v t else op (f 0 (t / 32 - 1) 0) (v t)) →
      E.Ensures (.when (Exp.var carry).negation (writeAll c.views xs (base + c.launch.ltid))) Q th₃ [] := by
    intro x th₃ hholds₃ ha₃ hx
    refine ensures_when ((takes (.refl _)).mono hholds₃.known) (fun _ => ?_) fun h => Bool.noConfusion h
    have := Area.ensures_writeAll false h.place hhas hm rfl hholds₃.known
      (eval_add (h.base t ht) (h.manned.localId t ht)) (fun _ => x) hholds₃.left hown (Q := Q) ?_
    · rwa [show c.views.map (·.withVolatile false) = c.views from List.map_id _] at this
    · rw [hx]
      exact hQ th₃ hholds₃.known (ha₃.trans (ha₂.trans ha₁))
  have htells := h.tells t ht
  cases test with
  | none =>
    refine ensures_when ((takes (.refl _)).mono hholds₂.known) (fun _ => ?_) fun h => Bool.noConfusion h
    refine happly E (B t) th₂ _ [] _ _ _ hops hleft hholds₂ (h.manned.computes t ht _ _) (f 0 (t / 32 - 1) 0).2
      (op (f 0 (t / 32 - 1) 0) (v t)).2 fun th₃ hholds₃ ha₃ => store _ hholds₃ ha₃ ?_
    rw [show crosses (t / 32 * 32 - 1) t = false from htells _ _]
    rfl
  | some test =>
    have hstarts := (takes (.refl (B t))).both fun _ =>
      htells (B t) (.refl _) _ _ _ _ (by omega) (Nat.lt_of_lt_of_le ht h.bounded) (h.blocked.eval_lastBefore ht hpart.1)
        (h.manned.localId t ht)
    have hnew : New m (numbered "inactive" k) := new_numbered (by decide) hk
    have hinactive : numbered "inactive" k ∉ xs ∧ numbered "inactive" k ∉ ys :=
      ⟨fun hx => hops.leftOld _ hx hnew, fun hy => hops.rightOld _ hy hnew⟩
    obtain ⟨σ, hσ, hle, hbefore⟩ := hops.exists_scope hholds₂
    rw [combineCarry, ensures_block, ensuresAll_cons]
    refine ensures_declareInit_of_known hle (hbefore _ hnew) (hstarts.mono hσ.known) rfl fun th₃ hth₃ ha₃ => ?_
    have hholds₃ := hσ.set hth₃ hinactive.1 hinactive.2
    have hops' := (hops.later (show m ≤ k + 1 by omega)).set hinactive.1 hinactive.2
      (fun hnew => hnew.ne_numbered (Nat.lt_succ_self k) rfl) (.bool (true && crosses (t / 32 * 32 - 1) t))
    refine ensures_takeIn happly hops hops' (Scope.le_set (h.manned.before t ht _ hnew)) hleft hholds₃ (takes (.refl _))
      Scope.set_self
      (h.manned.computes t ht _ _) (f 0 (t / 32 - 1) 0).2 (v t).2 (op (f 0 (t / 32 - 1) 0) (v t)).2
        fun th₄ hholds₄ ha₄ => ?_
    rw [if_pos rfl, ← apply_ite Subtype.val] at hholds₄
    exact store _ hholds₄ (ha₄.trans ha₃) rfl

/-- A thread that has nothing to take in. -/
theorem ensures_pass {E : Solo} {th : Thread} {Q : Claim} {t : Nat} (ht : t < G.size)
    (hno : (decide (32 ≤ t) && decide (t < cnt)) = false) (hk : m ≤ k) (hC : (C t).Le (E.scope th))
    (hQ : ∀ th', (C t).Le (E.scope th') → th'.arrays = th.arrays → Q th' []) :
    E.EnsuresAll [
      .when (Exp.var carry).negation <| .block [
        setAll ys xs, readAll (c.views.map View.uncached) xs (base + .var ids.block - .int 1)],
      c.combineCarry test ids carry (numbered "inactive" k) xs ys apply,
      .when (Exp.var carry).negation (writeAll c.views xs (base + c.launch.ltid))] Q th [] := by
  have pass : ∀ {σ : Scope}, (C t).Le σ → IsBool σ (Exp.var carry).negation false := fun hσ =>
    hno ▸ h.hasCarry ht ((h.le t ht).trans hσ)
  rw [ensuresAll_cons, ensuresAll_cons, ensuresAll_singleton]
  refine ensures_when (pass hC) nofun fun _ => ?_
  have last : ∀ th', (C t).Le (E.scope th') → th'.arrays = th.arrays →
      E.Ensures (.when (Exp.var carry).negation (writeAll c.views xs (base + c.launch.ltid))) Q th' [] :=
        fun th' hth' ha =>
    ensures_when (pass hth') nofun fun _ => hQ th' hth' ha
  cases test with
  | none => exact ensures_when (pass hC) nofun fun _ => last th hC rfl
  | some test =>
    have hnew : C t (numbered "inactive" k) = none := (h.before t ht).fresh (by decide) hk
    have hinactive : ((C t).set (numbered "inactive" k) (.bool false)) (numbered "inactive" k) = some (.bool false) :=
      Scope.set_self
    rw [combineCarry, ensures_block, ensuresAll_cons, ensuresAll_cons, ensuresAll_singleton]
    refine ensures_declareInit_of_known hC hnew ((pass (.refl _)).both (b := true) nofun) rfl fun th₁ hth₁ ha₁ => ?_
    have hle := (Scope.le_set hnew).trans hth₁
    refine ensures_when (eval_var (hth₁ _ _ hinactive)) nofun fun _ => ?_
    exact ensures_when ((pass hle).both (b := true) nofun) nofun fun _ => last th₁ hle ha₁

variable (own m₀ f) in
/-- The threads after the first block take in the totals of the blocks before their own. -/
theorem does_carryIn (happly : Applies c.lambda m xs ys apply) (hk : m ≤ k) :
    G.Does A.covers (G.Knows C own) (A.Filled m₀ f)
      (.block [
        .when (Exp.var carry).negation <| .block [
          setAll ys xs, readAll (c.views.map View.uncached) xs (base + .var ids.block - .int 1)],
        c.combineCarry test ids carry (numbered "inactive" k) xs ys apply,
        .when (Exp.var carry).negation (writeAll c.views xs (base + c.launch.ltid))])
      (G.Knows (fun t => if 32 ≤ t ∧ t < cnt then B t else C t) own)
      (A.Filled m₀ fun r e l => if 32 ≤ e ∧ e < cnt then
        if crosses (e / 32 * 32 - 1) e then v e else op (f 0 (e / 32 - 1) 0) (v e) else f r e l) := by
  have takes : ∀ {t}, (decide (32 ≤ t) && decide (t < cnt)) = true → 32 ≤ t ∧ t < cnt := fun hp => by
    simpa only [Bool.and_eq_true, decide_eq_true_eq] using hp
  have makes : ∀ {t}, 32 ≤ t ∧ t < cnt → (decide (32 ≤ t) && decide (t < cnt)) = true := fun hp => by
    simpa only [Bool.and_eq_true, decide_eq_true_eq] using hp
  have hlane : 0 < A.place.laneCount := by rw [Area.laneCount_of_shared h.place]; omega
  refine Area.does_stores (fun t => decide (32 ≤ t) && decide (t < cnt)) (fun t => (0, t))
    (fun t _ => if crosses (t / 32 * 32 - 1) t then v t else op (f 0 (t / 32 - 1) 0) (v t)) h.manned.unchecked
    (fun t _ hp => (h.has 0 t).mpr ⟨rfl, ?_⟩) (fun t _ t' _ _ _ => congrArg Prod.snd) (fun m hm t ht th hth => ?_)
    (fun t _ hp l _ => if_pos ?_) fun r e hhas hother l _ => if_neg fun hlt => ?_
  · exact (takes hp).2
  · rw [ensures_block]
    -- Only threads past the first block combine; the others pass.
    by_cases hpart : 32 ≤ t ∧ t < cnt
    · refine h.ensures_carry rfl hm ht hpart happly hk hth.1 (fun p hp => ?_)
        (fun p hp => own_among ⟨ht, ?_, 0, hlane, hp⟩)
        fun th' hth' ha => ⟨⟨?_, ha.trans hth.2⟩, ?_⟩
      · refine Area.keeps_of_others (fun t _ hp => (h.has 0 t).mpr ⟨rfl, (takes hp).2⟩)
          ((h.has 0 _).mpr ⟨rfl, by omega⟩) hlane hp
          fun t' ht' hp' _ e => ?_
        have := (takes hp').1
        have : t' = t / 32 - 1 := congrArg Prod.snd e
        have := h.bounded
        omega
      · exact makes hpart
      · dsimp only
        rwa [if_pos hpart]
      · rw [if_pos (makes hpart)]
    · have hno : (decide (32 ≤ t) && decide (t < cnt)) = false := by
        rw [Bool.eq_false_iff]
        exact fun hp => hpart (takes hp)
      refine h.ensures_pass ht hno hk hth.1 fun th' hth' ha => ⟨⟨?_, ha.trans hth.2⟩, ?_⟩
      · dsimp only
        rwa [if_neg hpart]
      · rw [if_neg (by rw [hno]; exact Bool.false_ne_true)]
  · exact takes hp
  · exact hother e (Nat.lt_of_lt_of_le hlt.2 h.size) (makes hlt) (Prod.ext ((h.has r e).mp hhas).1.symm rfl)

end CarriesScalars

/-- A scan of the first elements of an area of scalars. -/
structure ScansWhole (A : c.Area) (G : Team) (op : c.lambda.Tuple → c.lambda.Tuple → c.lambda.Tuple) (B : Nat → Scope)
    (n : Nat) (test : Option SegmentTest) (base w : Exp) (b : Int64) (cnt : Nat) (crosses : Nat → Nat → Bool) :
    Prop where
  manned : A.Manned G op B n
  place : A.place = .shared b
  has : ∀ r e, A.has r e ↔ r = 0 ∧ e < cnt
  size : cnt ≤ G.size
  bounded : G.size ≤ 1024
  base : ∀ t < G.size, base.eval (B t) = .ok (.i64 b)
  count : ∀ t < G.size, w.eval (B t) = .ok (.i64 (Int64.ofNat cnt))
  tells : ∀ t < G.size, TellsSegments test (B t) 1024 crosses
  rounds : 5 ≤ G.ctx.loopLimit

theorem ScansWhole.mono {w : Exp} {B' : Nat → Scope} {n' : Nat} (h : ScansWhole A G op B n test base w b cnt crosses)
    (hA : A.Manned G op B' n') (hle : ∀ t < G.size, (B t).Le (B' t)) :
    ScansWhole A G op B' n' test base w b cnt crosses where
  manned := hA
  place := h.place
  has := h.has
  size := h.size
  bounded := h.bounded
  base t ht := eval_mono (hle t ht) (h.base t ht)
  count t ht := eval_mono (hle t ht) (h.count t ht)
  tells t ht := (h.tells t ht).mono (hle t ht)
  rounds := h.rounds

/-- The threads take in the totals of the blocks before their own, and the first block gets its elements back. -/
theorem ScansWhole.does_finish {w : Exp} {C : Nat → Scope} {m₁ m₂ m₃ : Nat} {v : Nat → c.lambda.Tuple}
    (h : ScansWhole A G op B n test base w b cnt crosses) (own : Nat → Memory) (m₀ : Store) (f f' : c.Contents)
    (hids : Blocked G B ids cnt) (hC : A.Manned G op C m₂) (hle : ∀ t < G.size, (B t).Le (C t))
    (hxs : Registers n m₁ c.lambda.resultTypes.length xs) (hys : Registers m₂ m₃ c.lambda.resultTypes.length ys)
    (hn : n ≤ m₂) (hm₁ : m₁ ≤ m₂) (hm₃ : m₂ ≤ m₃) (hsees : ∀ t < G.size, t < cnt → (C t).Sees xs (v t).1)
    (happly : Applies c.lambda (m₃ + 1) xs ys apply) (hk : m₃ + 1 ≤ k)
    (hf' : ∀ e < cnt, f' 0 e 0 = carryIn op crosses v (fun e => f 0 e 0) e) (carryText restoreText : String) :
    G.DoesAll A.covers (G.Knows C own) (A.Filled m₀ f) [
      declareAll ys c.lambda.resultTypes,
      .declareInit (numbered "no_carry_in" m₃) .bool (ids.isFirstBlock.either (Exp.var ids.inBounds).negation),
      .comment carryText <| .block [
        .when (Exp.var (numbered "no_carry_in" m₃)).negation <| .block [
          setAll ys xs, readAll (c.views.map View.uncached) xs (base + .var ids.block - .int 1)],
        c.combineCarry test ids (numbered "no_carry_in" m₃) (numbered "inactive" k) xs ys apply,
        .when (Exp.var (numbered "no_carry_in" m₃)).negation (writeAll c.views xs (base + c.launch.ltid))],
      .barrier .shared,
      .comment restoreText (.when (ids.isFirstBlock.both (.var ids.inBounds))
        (writeAll c.views xs (base + c.launch.ltid))),
      .barrier .shared]
      (G.Knows B own) (A.Filled m₀ f') := by
  let σ : Nat → Scope := fun t => (C t).withAll ys (zeros c.lambda).1
  let noCarry : Ident := numbered "no_carry_in" m₃
  let first : Nat → Value := fun t => .bool (!(decide (32 ≤ t) && decide (t < cnt)))
  have hle₁ : ∀ t < G.size, (C t).Le (σ t) := fun t ht => Scope.le_withAll hys.nodup (hys.unknown (hC.before t ht))
  have hA₁ : A.Manned G op σ m₃ := hC.mono hle₁
    (fun t ht => hys.before_withAll ((hC.before t ht).mono hm₃) (Nat.le_refl _)) hm₃
  have declareOwn : G.Does A.covers (G.Knows C own) (A.Filled m₀ f) (declareAll ys c.lambda.resultTypes)
      (G.Knows σ own) (A.Filled m₀ f) := by
    refine Does.silent h.manned.unchecked fun m hm t ht th hth => ?_
    refine ensures_declareAll (n := m₃) hys.nodup (hys.not_new (Nat.le_refl _)) hys.length fun th' hth' ha =>
      ⟨⟨?_, ha.trans hth.2⟩, rfl⟩
    exact Scope.withAll_le (hth'.le hth.1 ((hC.before t ht).mono hm₃) (hys.unknown (hC.before t ht))) hth'.sees
  have declareFirst : G.Does A.covers (G.Knows σ own) (A.Filled m₀ f)
      (.declareInit noCarry .bool (ids.isFirstBlock.either (Exp.var ids.inBounds).negation))
      (G.Knows (fun t => (σ t).set noCarry (first t)) own) (A.Filled m₀ f) := by
    refine hA₁.declares (by decide) (fun t ht => ?_) fun _ _ => rfl
    have hids := (hids.mono hle).mono hle₁
    have htest := (firstBlock_isBool (Nat.lt_trans ht h.manned.size_lt) (hids.block t ht)).either fun _ =>
      IsBool.negation (eval_var (hids.inBounds t ht))
    rwa [show (decide (t < 32) || !decide (t < cnt)) = !(decide (32 ≤ t) && decide (t < cnt)) by
      rw [Bool.not_and, ← decide_not (p := 32 ≤ t), decide_eq_decide.mpr Nat.not_le]] at htest
  have hA : A.Manned G op (fun t => (B t).set noCarry (first t)) (m₃ + 1) :=
    (h.manned.later (Nat.le_trans hn hm₃)).set (by decide)
  have hleB : ∀ t < G.size, (B t).Le ((B t).set noCarry (first t)) :=
    (h.manned.later (Nat.le_trans hn hm₃)).le_set (by decide)
  have hle₂ : ∀ t < G.size, (σ t).Le ((σ t).set noCarry (first t)) := hA₁.le_set (by decide)
  have hcarry : CarriesScalars A G op (fun t => (B t).set noCarry (first t)) (fun t => (σ t).set noCarry (first t))
      (m₃ + 1) test base ids b cnt crosses xs ys noCarry v := by
    refine ⟨hA, h.place, h.has, h.size, h.bounded, fun t ht => eval_mono (hleB t ht) (h.base t ht), hids.mono hleB,
      fun t ht => (h.tells t ht).mono (hleB t ht), fun t ht => ?_, fun t ht => Scope.set_self,
      fun t ht => ((hle t ht).trans (hle₁ t ht)).set, fun t ht => (hA₁.set (by decide)).before t ht, fun t ht hlt => ?_,
      fun t ht => ⟨zeros c.lambda, ?_⟩, ?_⟩
    · have hnames : ScanNames c.lambda.resultTypes.length n m₃ xs ys :=
        ⟨hxs.later (Nat.le_trans hm₁ hm₃), hys.earlier hn, hxs.disjoint hys hm₁⟩
      exact (hnames.operands (h.manned.before t ht) (by omega) (by omega)).set (hnames.left.ne_numbered (Nat.le_refl _))
        (hnames.right.ne_numbered (Nat.le_refl _)) (fun hnew => hnew.ne_numbered (Nat.lt_succ_self _) rfl) _
    · exact ((hsees t ht hlt).mono (hle₁ t ht)).mono (hle₂ t ht)
    · exact (Scope.sees_withAll hys.nodup (hys.length.trans (List.length_map ..).symm)).mono (hle₂ t ht)
    · rintro x (hx | hx)
      · exact h.manned.free x (hxs.taken x hx).new
      · exact h.manned.free x ((hys.taken x hx).new.mono hn)
  have carry := hcarry.does_carryIn own m₀ f happly hk
  -- Threads past the first block have taken in what lies before; the others are as they were.
  let τ : Nat → Scope := fun t => if 32 ≤ t ∧ t < cnt then (B t).set noCarry (first t) else (σ t).set noCarry (first t)
  have hleτ : ∀ t < G.size, (B t).Le (τ t) := fun t ht => by
    by_cases hpart : 32 ≤ t ∧ t < cnt
    · rw [show τ t = _ from if_pos hpart]
      exact hleB t ht
    · rw [show τ t = _ from if_neg hpart]
      exact (hle t ht).trans ((hle₁ t ht).trans (hle₂ t ht))
  have takes : ∀ {t}, (decide (t < 32) && decide (t < cnt)) = true → t < 32 ∧ t < cnt := fun hp => by
    simpa only [Bool.and_eq_true, decide_eq_true_eq] using hp
  have restore : G.Does A.covers (G.Knows τ own) (A.Filled m₀ fun r e l => if 32 ≤ e ∧ e < cnt then
      if crosses (e / 32 * 32 - 1) e then v e else op (f 0 (e / 32 - 1) 0) (v e) else f r e l)
      (.when (ids.isFirstBlock.both (.var ids.inBounds)) (writeAll c.views xs (base + c.launch.ltid)))
      (G.Knows τ own) (A.Filled m₀ f') := by
    rw [show c.views = c.views.map (·.withVolatile false) from (List.map_id _).symm]
    refine does_storeRegisters (fun t => decide (t < 32) && decide (t < cnt)) id v h.manned.unchecked h.place
      (fun r e he => ((h.has r e).mp he).1) false (fun t ht => ?_) (fun t ht hp => ?_) (fun t _ t' _ _ _ => id)
      (fun t ht hp => ?_) (fun t ht hp => ?_) fun e he hother => ?_
    · exact (firstBlock_isBool (Nat.lt_trans ht h.manned.size_lt) ((hids.mono hleτ).block t ht)).both fun _ =>
        eval_var ((hids.mono hleτ).inBounds t ht)
    · refine ⟨?_, (h.has 0 t).mpr ⟨rfl, (takes hp).2⟩⟩
      exact eval_mono (hleτ t ht) (eval_add (h.base t ht) (h.manned.localId t ht))
    · have := takes hp
      rw [show τ t = _ from if_neg fun hpart => by omega]
      exact hcarry.left t ht this.2
    · exact (hf' t (takes hp).2).trans (if_pos (takes hp).1)
    · obtain ⟨-, hlt⟩ := (h.has 0 e).mp he
      have hlater : 32 ≤ e := Nat.le_of_not_lt fun hfirst => hother e (Nat.lt_of_lt_of_le hlt h.size)
        (by rw [decide_eq_true hfirst, decide_eq_true hlt]; rfl) rfl
      rw [hf' e hlt, carryIn, if_neg (Nat.not_lt.mpr hlater)]
      exact (if_pos ⟨hlater, hlt⟩).symm
  exact .cons declareOwn (.cons declareFirst
    (.cons (does_comment.mpr carry) (.cons does_barrier (.cons (does_comment.mpr restore)
    (Does.single (does_barrier.imp (fun _ _ _ => id) (fun _ => id) (Knows.forget hleτ) fun _ => id))))))

/-- The scan of scalars. It touches no other elements than the first `cnt`. -/
theorem scanScalars_does (test : Option SegmentTest) (base w : Exp) :
    Fresh.At n (c.scanScalars test base w) fun _ code =>
    ∀ (A : c.Area) (G : Team) (op : c.lambda.Tuple → c.lambda.Tuple → c.lambda.Tuple) (B : Nat → Scope) (own : Nat → Memory)
      (m₀ : Store) (f : c.Contents) (b : Int64) (cnt : Nat) (crosses : Nat → Nat → Bool),
      ScansWhole A G op B n test base w b cnt crosses →
        G.Does A.covers (G.Knows B own) (A.Filled m₀ f) code (G.Knows B own)
          (A.Filled m₀ (scanResult op crosses cnt f)) := by
  refine (blocks_does w).bind ?_
  rintro _ ⟨ids, declareIds⟩ - ⟨rfl, hdeclare⟩
  refine (scanBlocks_does test base ids (.var ids.inBounds)).bind ?_
  rintro m₁ ⟨blockScan, xs⟩ hm₁ ⟨hxs, hblockScan⟩
  refine (scanBlocks_does (test.map SegmentTest.ofBlocks) base ids (ids.isFirstBlock.both (.var ids.inBounds))).bind ?_
  rintro m₂ ⟨carryScan, xs₂⟩ hm₂ ⟨-, hcarryScan⟩
  refine (Fresh.At.registers (by decide) _).bind fun m₃ ys hm₃ hys => ?_
  refine .take ?_
  refine (assign_applies c.lambda xs ys).bind fun m₄ apply hm₄ happly => ?_
  extract_lets writeBack rest
  have hrest : ∀ m k, m₄ ≤ k →
      Fresh.At m (rest (c.combineCarry test ids (numbered "no_carry_in" m₃) (numbered "inactive" k) xs ys apply))
        fun _ code =>
        ∀ (A : c.Area) (G : Team) (op : c.lambda.Tuple → c.lambda.Tuple → c.lambda.Tuple) (B : Nat → Scope) (own : Nat → Memory)
          (m₀ : Store) (f : c.Contents) (b : Int64) (cnt : Nat) (crosses : Nat → Nat → Bool),
          ScansWhole A G op B n test base w b cnt crosses →
            G.Does A.covers (G.Knows B own) (A.Filled m₀ f) code (G.Knows B own)
              (A.Filled m₀ (scanResult op crosses cnt f)) := by
    refine fun m k hk => .pure fun A G op B own m₀ f b cnt crosses h => ?_
    obtain ⟨σ₀, declareIds, hA₀, hle₀, hids⟩ :=
      hdeclare A G op B own A.covers (A.Filled m₀ f) cnt h.manned h.size h.count
    have h₀ := h.mono hA₀ hle₀
    have hhas : ∀ e < cnt, A.has 0 e := fun e he => (h.has 0 e).mpr ⟨rfl, he⟩
    obtain ⟨σ₁, blockScan, hA₁, hle₁, hsees₁⟩ :=
      hblockScan A G op σ₀ own m₀ f b cnt 1024 (fun t => decide (t < cnt)) crosses
      { manned := hA₀
        inBlock := hids.inBlock
        active := fun t ht => eval_var (hids.inBounds t ht)
        lt := fun t ht => Nat.lt_of_lt_of_le (of_decide_eq_true ht) (Nat.le_trans h.size h.bounded)
        tells := h₀.tells
        rounds := h.rounds
        place := h.place
        base := h₀.base
        has := hhas
        size := h.size
        reaches := fun t => of_decide_eq_true }
    have h₁ := h₀.mono hA₁ hle₁
    have hids₁ := hids.mono hle₁
    have publish := does_publish own m₀ h.manned.unchecked h.place h.has h₁.base h.size hids₁
      fun t ht hlt => hsees₁ t ht (decide_eq_true hlt)
    have takes : ∀ {t}, (decide (t < 32) && decide (t < cnt)) = true → t < cnt ∧ t < 32 := fun hp => by
      simpa only [Bool.and_eq_true, decide_eq_true_eq, and_comm] using hp
    -- What the elements hold: `f₁` after the scans of the blocks, `f₂` with the totals moved to the first block,
    -- `f₃` after the scan of the totals.
    let f₁ : c.Contents := scanned op crosses (fun t => decide (t < cnt)) f 5
    let f₂ : c.Contents := fun _ e l => if 32 * e + 31 < cnt then f₁ 0 (32 * e + 31) l else f₁ 0 e l
    obtain ⟨σ₂, carryScan, hA₂, hle₂, -⟩ :=
      hcarryScan A G op σ₁ own m₀ f₂ b cnt 32 (fun t => decide (t < 32) && decide (t < cnt))
      (fun i j => crosses (32 * i + 31) (32 * j + 31))
      { manned := hA₁
        inBlock := hids₁.inBlock
        active := fun t ht => (firstBlock_isBool (Nat.lt_trans ht h.manned.size_lt) (hids₁.block t ht)).both fun _ =>
          eval_var (hids₁.inBounds t ht)
        lt := fun t ht => (takes ht).2
        tells := fun t ht => (h₁.tells t ht).ofBlocks
        rounds := h.rounds
        place := h.place
        base := h₁.base
        has := hhas
        size := h.size
        reaches := fun t ht => (takes ht).1 }
    let f₃ : c.Contents := scanned op (fun i j => crosses (32 * i + 31) (32 * j + 31))
      (fun t => decide (t < 32) && decide (t < cnt)) f₂ 5
    have finish := h₀.does_finish own m₀ f₃ (scanResult op crosses cnt f) hids hA₂
      (fun t ht => (hle₁ t ht).trans (hle₂ t ht)) hxs hys (Nat.le_trans hm₁ hm₂) hm₂ hm₃
      (fun t ht hlt => (hsees₁ t ht (decide_eq_true hlt)).mono (hle₂ t ht)) happly (Nat.le_trans hm₄ hk)
      (fun e _ => scanResult_eq_carryIn 0 e) "carry-in for every block except the first"
        "restore correct values for first block"
    refine does_block.mpr (.cons declareIds (.cons blockScan (.cons does_barrier (.cons (does_comment.mpr publish)
      (.cons does_barrier (.cons (does_comment.mpr carryScan) (.cons does_barrier
      (finish.imp (fun _ _ _ => id) (fun _ => id) (Knows.forget hle₀) fun _ => id))))))))
  cases test with
  | none => exact hrest m₄ m₄ (Nat.le_refl _)
  | some test => exact .take (hrest (m₄ + 1) m₄ (Nat.le_refl _))

/-! ### Whole groups -/

variable {ctx : GroupContext} {s : GroupState} {start : Nat → Nat} {a : Nat → c.lambda.Tuple}

/-- A memory that holds the scanned elements shows what lies before each one in its segment. -/
theorem shows_scanned {m : Store} (hplace : A.place = .shared b) (hhas : ∀ r e, A.has r e ↔ r = 0 ∧ e < cnt)
    (hm : A.Filled m₀ (scanResult op (fun i j => decide (i < start j)) cnt fun _ e _ => a e) m)
    (hop : Std.Associative op) (hstart : Segmentation start) (hcnt : cnt ≤ 1024) {e : Nat} (he : e < cnt) :
    (Site.shared b).Shows c.views m 0 e 0 (foldSpan op a (start e) e).1 := by
  have := hm.shows ((hhas 0 e).mpr ⟨rfl, he⟩) (l := 0) (by rw [hplace]; exact Nat.one_pos)
  rwa [hplace, scanResult_eq hop hstart (fun _ _ _ _ => rfl) hcnt he] at this

/-- A whole group makes the scan of the elements that lie in shared memory from a position on. -/
theorem Starts.exec_scan_shared (schedule : Schedule) {w : Exp} (hstarts : c.Starts ctx s n op)
    (hlayout : c.layout = .shared base)
    (hbase : s.Knows ctx n base fun _ => b) (hsegments : s.Segments ctx n test start)
    (hw : s.Knows ctx n w fun _ => Int64.ofNat cnt) (hcnt : cnt ≤ ctx.groupSize.toInt)
    (hsize : ctx.groupSize.toInt ≤ scanBlockSize.toInt ^ 2) (hlimit : 5 ≤ ctx.loopLimit)
    (ha : ∀ e < cnt, (Site.shared b).Shows c.views s.store 0 e 0 (a e).1) :
    ∃ A : c.Area, A.place = .shared b ∧ (∀ r e, A.has r e ↔ r = 0 ∧ e < cnt) ∧
      ∃ s', Run.exec ctx ((c.scan test w).run n).1 (schedule.order ctx.groupSize.toInt.toNat) s = .ok () s' ∧
        A.Filled s.store (scanResult op (fun i j => decide (i < start j)) cnt fun _ e _ => a e) s'.store ∧
        ∀ t < ctx.groupSize.toInt.toNat, (s'.thread t).arrays = (s.thread t).arrays := by
  let G := hstarts.team schedule
  have hsize' : ctx.groupSize.toInt = G.size := hstarts.size_eq schedule
  have hbound : G.size ≤ 1024 := by
    rw [hsize'] at hsize
    exact Int.ofNat_le.mp hsize
  have hlies : c.layout.LiesAt c.launch 1 ctx s n (.shared b) := by
    rw [hlayout]
    exact ⟨b, rfl, hbase⟩
  have ha' : ∀ e < cnt, ∀ l < (Site.shared b).laneCount, (Site.shared b).Shows c.views s.store 0 e l (a e).1 := by
    intro e he l hl
    obtain rfl : l = 0 := Nat.lt_one_iff.mp hl
    exact ha e he
  let A := hstarts.elements hlies Nat.one_pos hcnt (a := fun e _ => a e) ha'
  have hmanned := hstarts.manned (A := A) schedule hlies (Nat.le_trans (by decide : 1 ≤ 5) hlimit)
  have hdoes := (scanScalars_does (c := c) (n := n) test base w).2 A G op (knowledge s ctx n)
    (fun t => (s.thread t).arrays)
    s.store
    (fun _ e _ => a e) b cnt (fun i j => decide (i < start j)) ⟨hmanned, rfl, fun _ _ => Iff.rfl, by omega, hbound,
      fun t ht => eval_knowledge hbase ht, fun t ht => eval_knowledge hw ht, fun t ht => hsegments.tells ht, hlimit⟩
  -- In shared memory the scan is the one of scalars.
  have hcode : ((c.scan test w).run n).1 = .comment "group scan" ((c.scanScalars test base w).run n).1 := by
    unfold scan
    rw [hlayout]
    rfl
  rw [hcode, Run.exec_comment]
  obtain ⟨⟨s', hrun, hm, hthreads⟩, -⟩ := hstarts.run schedule hdoes (Starts.filled hstarts hlies Nat.one_pos hcnt ha')
  exact ⟨A, rfl, fun _ _ => Iff.rfl, s', hrun, hm, fun t ht => (hthreads t ht).2⟩

/-- A whole group scans the elements that lie in shared memory from a position on. Each one becomes the
    combination of what lies before it in its segment, from left to right, in waves of any width and with any
    order of the threads. Nothing else changes. -/
theorem scan_shared_folds (schedule : Schedule) {w : Exp} (hstarts : c.Starts ctx s n op)
    (hlayout : c.layout = .shared base) (hbase : s.Knows ctx n base fun _ => b) (hop : Std.Associative op)
    (hsegments : s.Segments ctx n test start) (hw : s.Knows ctx n w fun _ => Int64.ofNat cnt)
    (hcnt : cnt ≤ ctx.groupSize.toInt) (hsize : ctx.groupSize.toInt ≤ scanBlockSize.toInt ^ 2)
    (hlimit : 5 ≤ ctx.loopLimit) (ha : ∀ e < cnt, (Site.shared b).Shows c.views s.store 0 e 0 (a e).1) :
    ∃ s', Run.exec ctx ((c.scan test w).run n).1 (schedule.order ctx.groupSize.toInt.toNat) s = .ok () s' ∧
      (∀ e < cnt, (Site.shared b).Shows c.views s'.store 0 e 0 (foldSpan op a (start e) e).1) ∧
      (∀ space array, s'.store.layout? space array = s.store.layout? space array) ∧
      (∀ p, (∀ e < cnt, ¬tupleSlots c.views (b + Int64.ofNat e).toInt.toNat p) → s'.store.bits? p = s.store.bits? p) ∧
      ∀ t < ctx.groupSize.toInt.toNat, (s'.thread t).arrays = (s.thread t).arrays := by
  obtain ⟨A, hplace, hhas, s', hrun, hm, harrays⟩ :=
    hstarts.exec_scan_shared schedule hlayout hbase hsegments hw hcnt hsize hlimit ha
  have hbound : cnt ≤ 1024 := Int.ofNat_le.mp (Int.le_trans hcnt hsize)
  refine ⟨s', hrun, fun e he => shows_scanned hplace hhas hm hop hsegments.segmentation hbound he, hm.layout,
    fun p hp => hm.frame p ?_, harrays⟩
  rintro ⟨r, e, l, hin, hl, hslot⟩
  obtain ⟨rfl, he⟩ := (hhas r e).mp hin
  refine hp e he ?_
  rw [hplace] at hl
  obtain rfl : l = 0 := Nat.lt_one_iff.mp hl
  rwa [Area.slots, Area.position, hplace] at hslot

/-- Scalars of a group of two. -/
def pairScalars (base : Exp) :
    Collective := { pairRows with views := [⟨"cells", .i64, .shared, false⟩], layout := .shared base }

/-- Cells that hold some numbers. -/
def cellState (count : Nat) (number : Nat → Nat) : GroupState :=
  { countedState with shared := ({} : Memory).insert "cells" ⟨.i64, (Array.range count).map fun i => UInt64.ofNat (number i)⟩ }

section Cells
variable {count : Nat} {number : Nat → Nat}

variable (count number) in
theorem cells_holds {i : Nat} (hi : i < count) :
    (cellState count number).store.HoldsAll (pairScalars base).views i (single (Int64.ofNat (number i))).1 :=
  .cons (holds_numbers count number rfl (by simp [Store.buffer?, cellState, GroupState.store]) hi) .nil

theorem cells_knows {x : Exp} {value : Nat → Int64} (h : countedState.Knows uncheckedContext 0 x value) :
    (cellState count number).Knows uncheckedContext 0 x value := ⟨h.old, h.eval⟩

theorem cells_starts : (pairScalars base).Starts uncheckedContext (cellState count number) 0 sum where
  threads := counted_starts.threads
  positive := counted_starts.positive
  unchecked := counted_starts.unchecked
  localId := cells_knows counted_starts.localId
  wave := cells_knows counted_starts.wave
  groupSize := cells_knows counted_starts.groupSize
  free := counted_starts.free
  typed := ⟨List.pairwise_singleton _ _, rfl⟩
  computes t ht := counted_starts.computes t ht

end Cells

/-- The scan of a segment of two scalars that lie from the fourth position on. The threads take their turns
    in reverse. -/
theorem cells_scan_shared_folds : ∃ s',
    Run.exec uncheckedContext (((pairScalars (.int 4)).scan (some (crossesSegment (.int 2))) (.int 2)).run 0).1 [1, 0]
    (cellState 8 id) =
      .ok () s' ∧ ∀ e < 2, (Site.shared 4).Shows (pairScalars (.int 4)).views s'.store 0 e 0
        (foldSpan sum (fun e => single (Int64.ofNat (4 + e))) (e / (2 : Int64).toInt.toNat * (2 : Int64).toInt.toNat)
          e).1 := by
  have hbase : (cellState 8 id).Knows uncheckedContext 0 (.int 4) fun _ => 4 :=
    cells_knows (counted_knows (by decide) (by decide +kernel))
  have htwo : (cellState 8 id).Knows uncheckedContext 0 (.int 2) fun _ => 2 :=
    cells_knows (counted_knows (by decide) (by decide +kernel))
  have hcount : (cellState 8 id).Knows uncheckedContext 0 (.int 2) fun _ => Int64.ofNat 2 := htwo
  have hspot : ∀ e < 2, ((Site.shared 4).spot 0 e 0).toInt.toNat = 4 + e ∧ 0 ≤ ((Site.shared 4).spot 0 e 0).toInt := by
    decide +kernel
  obtain ⟨s', hrun, hshows, -⟩ :=
    scan_shared_folds (c := pairScalars (.int 4)) .reverse cells_starts rfl hbase sum_associative
    (.ofSize htwo (by decide)) hcount (by decide) (by decide) (by decide) (a := fun e => single (Int64.ofNat (4 + e)))
    fun e he => ⟨(hspot e he).2, by
      rw [(hspot e he).1]
      exact cells_holds 8 id (by omega)⟩
  exact ⟨s', hrun, hshows⟩

end SegKernel.Collective
