import SegKernel.Proofs.Totals.Groups

/-! What the threads of a reduction know when they have counted their turns, and when they have folded their points. -/

namespace SegKernel
open Exp

/-- A group of a launch that can run a reduction. Nobody looks for races, and the steps of a reduction in the group are
    fewer than the rounds that a loop may make. -/
structure Team.Equipped (G : Team) (op : SegOp) (H : Surroundings) (g : Nat) : Prop where
  wellNamed : op.WellNamed H.env
  captured : G.ctx.captured = H.env.bindings H.host
  group : G.ctx.group = Int64.ofNat g
  size : G.ctx.groupSize = Int64.ofNat G.size
  unchecked : G.ctx.checkRaces = false
  limit : 62 ≤ G.ctx.loopLimit
  waved : ∃ m, Collective.Waved G m

namespace Team.Equipped
variable {op : SegOp} {H : Surroundings} {G : Team} {g n n' p t : Nat} {stem : String} {accs : List Accumulator}
  {vs : List Value}

/-- What is known when the threads have found their places. -/
theorem oriented (h : G.Equipped op H g) (numGroups groupSize : Exp) :
    G.Oriented op H ((Launch.start numGroups groupSize).run n).1.1 g (n + 4) (G.placed H.scope n) :=
  (leads_entry (m := ⟨{}, {}⟩) h.wellNamed h.captured h.group numGroups groupSize).2

/-- The position of a thread among all threads of a launch. -/
theorem globalId (h : G.Equipped op H g) :
    G.placed H.scope n t (numbered "global_tid" n) = some (.i64 (Int64.ofNat (g * G.size + t))) := by
  rw [Int64.ofNat_add, Int64.ofNat_mul]
  simp [placed, Scope.set, numbered_inj, Run.answer, h.group, h.size]

theorem waveWidth : G.placed H.scope n t (numbered "wave_size" (n + 3)) = some (.i64 G.ctx.wave) := by
  simp [placed, Scope.set, Run.answer]

section
variable (h : G.Equipped op H g) (ht : t < G.size)
include h ht

theorem around : op.Around H (n + 4) (G.placed H.scope n t) := (h.oriented (.int 0) (.int 0)).around t ht

/-- The accumulators are not yet known when the turns are counted. -/
theorem unknown (registers : Registers (n + 4) n' (Accumulator.names accs).length (Accumulator.names accs)) :
    ∀ x ∈ Accumulator.names accs, G.turning H.scope n (numbered stem n') p t x = none := fun x hx => by
  have hne : numbered stem n' ≠ x := fun e => registers.ne_numbered (Nat.le_refl n') (e ▸ hx)
  rw [turning, Scope.set_of_ne hne]
  exact registers.unknown (h.around ht).before x hx

/-- What a thread knows then stays known when it has folded its points. -/
theorem le_folded (registers : Registers (n + 4) n' (Accumulator.names accs).length (Accumulator.names accs)) :
    (G.turning H.scope n (numbered stem n') p t).Le
      ((G.turning H.scope n (numbered stem n') p t).withAll (Accumulator.names accs) vs) :=
  Scope.le_withAll registers.nodup (h.unknown ht registers)

variable (hstem : stem ∈ uniformStems ++ ownStems ++ arrayStems ++ kernelStems) (hn : n + 4 ≤ n')
include hstem hn

theorem around_turning : op.Around H (n' + 1) (G.turning H.scope n (numbered stem n') p t) :=
  (h.around ht).set h.wellNamed hstem (by omega) (Nat.lt_succ_self n') _

theorem le_turning :
    (G.placed H.scope n t).Le (G.turning H.scope n (numbered stem n') p t) := (h.around ht).le_set hstem hn

end

/-- When the threads have folded their points, they can combine what they have. -/
theorem gathered (h : G.Equipped op H g) (hstem : stem ∈ uniformStems ++ ownStems ++ arrayStems ++ kernelStems)
    (hn : n + 4 ≤ n') (registers : Registers (n + 4) n' (Accumulator.names accs).length (Accumulator.names accs))
    {m : Nat} (hm : n' + 1 ≤ m) {groupSize : Exp} (hwidth : IsInt H.scope groupSize G.size) (numGroups : Exp)
    (vs : Nat → List Value) : G.Gathered ((Launch.start numGroups groupSize).run n).1.1
      (fun t => (G.turning H.scope n (numbered stem n') p t).withAll (Accumulator.names accs) (vs t)) m := by
  have folded : ∀ t < G.size, (G.placed H.scope n t).Le
      ((G.turning H.scope n (numbered stem n') p t).withAll (Accumulator.names accs) (vs t)) := fun t ht =>
    (h.le_turning ht hstem hn).trans (h.le_folded ht registers)
  exact {
    before := fun t ht => registers.before_withAll ((h.around_turning ht hstem hn).before.mono hm) (by omega)
    localId := fun t ht => eval_var (folded t ht _ _ ((h.oriented numGroups groupSize).localId t ht))
    wave := fun t ht => eval_var (folded t ht _ _ waveWidth)
    groupSize := fun t ht => by
      rw [h.size]
      exact (hwidth.mono ((h.around ht).host.trans (folded t ht))).eval_nat
    size_eq := by
      rw [h.size]
      exact toInt_ofNat_of_fits hwidth.fits
    unchecked := h.unchecked
    free := fun x hx => by
      rw [h.captured]
      exact h.wellNamed.scope_eq_none hx.generated
    limit := h.limit
    waved := h.waved }

/-- When the threads have folded their points, the group combines what they have, and stores it. -/
theorem delivers (h : G.Equipped op H g) (hstem : stem ∈ uniformStems ++ ownStems ++ arrayStems ++ kernelStems)
    (hn : n + 4 ≤ n') (registers : Registers (n + 4) n' (Accumulator.names accs).length (Accumulator.names accs))
    {m : Nat} (hm : n' + 1 ≤ m) {numGroups groupSize : Exp} (hwidth : IsInt H.scope groupSize G.size) {Ts : List Total}
    (hserves : List.Forall₂ Accumulator.Serves accs Ts) (hlawful : ∀ T ∈ Ts, T.Lawful H.scope)
    {arrays : List SharedArray} {code : List Stmt} {dests : List View} {index : Exp}
    (hdelivers : ∀ (G : Team) (B : Nat → Scope) (share : Nat → List Nat) (i : Nat),
      G.Gathered ((Launch.start numGroups groupSize).run n).1.1 B m → (∀ T ∈ Ts, ∀ t < G.size, T.Lawful (B t)) →
        (∀ t < G.size, (B t).Sees (Accumulator.names accs) (Total.allOver Ts (share t))) → IsInt (B 0) index i →
          G.Delivers B arrays code dests i (Total.combined Ts share (G.size - 1))) {i : Nat}
    (hindex : ∀ τ, (G.placed H.scope n 0).Le τ → IsInt τ index i) (share : Nat → List Nat) :
    G.Delivers (fun t => (G.turning H.scope n (numbered stem n') p t).withAll (Accumulator.names accs)
      (Total.allOver Ts (share t)))
      arrays code dests i (Total.combined Ts share (G.size - 1)) := by
  have folded : ∀ t < G.size, (G.placed H.scope n t).Le
      ((G.turning H.scope n (numbered stem n') p t).withAll (Accumulator.names accs) (Total.allOver Ts (share t))) :=
        fun t ht =>
    (h.le_turning ht hstem hn).trans (h.le_folded ht registers)
  exact hdelivers G _ share i (h.gathered hstem hn registers hm hwidth numGroups fun t => Total.allOver Ts (share t))
    (fun T hT t ht => (hlawful T hT).mono ((h.around ht).host.trans (folded t ht)))
    (fun t _ => Scope.sees_withAll registers.nodup (Accumulator.length_names hserves (share t)))
      (hindex _ (folded 0 G.pos))

/-- What a thread knows at one of its turns. -/
structure Turned (G : Team) (op : SegOp) (H : Surroundings) (g n n' : Nat) (stem : String) (p t j : Nat) (τ : Scope) :
    Prop where
  around : op.Around H (n' + 2) τ
  base : (G.turning H.scope n (numbered stem n') p t).Le τ
  globalId : IsInt τ (.var (numbered "global_tid" n)) (g * G.size + t : Nat)
  localId : IsInt τ (.var (numbered "local_tid" (n + 1))) t
  turns : IsInt τ (.var (numbered stem n')) p
  turn : IsInt τ (.var (numbered "k" (n' + 1))) j

theorem turned (h : G.Equipped op H g) (n n' : Nat) (stem : String) (ht : t < G.size)
    (hstem : stem ∈ uniformStems ++ ownStems ++ arrayStems ++ kernelStems) (hn : n + 4 ≤ n') {j : Nat}
    (hplace : Fits ((g * G.size + t : Nat) : Int)) (hp : Fits (p : Int)) (hj : j < p) :
    Turned G op H g n n' stem p t j
      ((G.turning H.scope n (numbered stem n') p t).set (numbered "k" (n' + 1)) (.i64 (Int64.ofNat j))) := by
  have around := h.around_turning (p := p) ht hstem hn
  have base := around.le_set (show "k" ∈ _ by decide) (Nat.le_refl (n' + 1)) (v := .i64 (Int64.ofNat j))
  have placed := (h.le_turning (p := p) ht hstem hn).trans base
  exact {
    around := around.set h.wellNamed (by decide) (Nat.le_succ _) (Nat.lt_succ_self _) _
    base := base
    globalId := .var_nat (placed _ _ h.globalId) hplace
    localId := .var_nat (placed _ _ ((h.oriented (.int 0) (.int 0)).localId t ht)) (by
      unfold Fits at *
      omega)
    turns := .var_nat (base _ _ Scope.set_self) hp
    turn := .var_nat Scope.set_self (by
      unfold Fits at *
      omega) }

end Team.Equipped

/-! ### Points -/

namespace Sharing
variable {σ : Scope} {place turns turn threadCount : Exp} {threads p i j : Nat}

/-- A product of a sum that fits does so too. -/
theorem fits_of_mul_add {a b c : Nat} (h : Fits ((a * b + c : Nat) : Int)) : Fits ((a : Int) * b) := by
  have := Nat.le_add_right (a * b) c
  rw [← Int.natCast_mul]
  unfold Fits at *
  omega

/-- The point of a thread whose points lie next to each other. -/
theorem isInt_contiguous (threads : Nat) (hplace : IsInt σ place i) (hturns : IsInt σ turns p) (hturn : IsInt σ turn j)
    (hfits : Fits ((contiguous.point threads p i j : Nat) : Int)) :
    IsInt σ (place * turns + turn) (contiguous.point threads p i j : Nat) := by
  have hpoint : ((contiguous.point threads p i j : Nat) : Int) = i * p + j := by simp [point]
  rw [hpoint]
  exact (hplace.mul hturns (fits_of_mul_add hfits)).add hturn (hpoint ▸ hfits)

/-- The point of a thread whose points are as many apart as there are threads. -/
theorem isInt_strided (hplace : IsInt σ place i) (hthreads : IsInt σ threadCount threads) (hturn : IsInt σ turn j)
    (hfits : Fits ((strided.point threads p i j : Nat) : Int)) :
    IsInt σ (turn * threadCount + place) (strided.point threads p i j : Nat) := by
  have hpoint : ((strided.point threads p i j : Nat) : Int) = j * threads + i := by simp [point]
  rw [hpoint]
  exact (hturn.mul hthreads (fits_of_mul_add hfits)).add hplace (hpoint ▸ hfits)

/-- No point of a thread is far past the end. -/
theorem point_lt (s : Sharing) {n : Nat} (hi : i < threads) (hj : j < (n + threads - 1) / threads) :
    s.point threads ((n + threads - 1) / threads) i j < n + threads := by
  generalize hp : (n + threads - 1) / threads = p at hj ⊢
  have hle : threads * p ≤ n + threads - 1 := hp ▸ Nat.mul_div_le _ _
  cases s with
  | contiguous =>
    have : (i + 1) * p ≤ threads * p := Nat.mul_le_mul_right _ hi
    rw [Nat.succ_mul] at this
    show i * p + j < _
    omega
  | strided =>
    have : (j + 1) * threads ≤ p * threads := Nat.mul_le_mul_right _ hj
    rw [Nat.succ_mul, Nat.mul_comm p] at this
    show j * threads + i < _
    omega

/-- There are turns enough for all points. -/
theorem le_turns {n : Nat} (hthreads : 0 < threads) : n ≤ threads * ((n + threads - 1) / threads) := by
  have := Nat.lt_mul_div_succ (n + threads - 1) hthreads
  rw [Nat.mul_succ] at this
  omega

end Sharing
end SegKernel
