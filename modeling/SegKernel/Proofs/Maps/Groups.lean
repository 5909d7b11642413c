import SegKernel.Proofs.Maps.Covering

/-! The run of a map by a group of a launch. The group finds its place in the launch, and visits its logical
    groups one after another. What it writes are the writes of their points. -/

namespace SegKernel
open Exp

/-! ### What is known around the points -/

namespace Segmented
variable {op : SegOp} {H : Surroundings} {pattern : List PatElem} {ds : List Nat} {ws : List Write} {σ : Scope}
  {n m k : Nat} {stem : String}

/-- The variables of the host are known, and names that were taken before, and no others. -/
structure Around (op : SegOp) (H : Surroundings) (n : Nat) (σ : Scope) : Prop where
  host : H.scope.Le σ
  before : σ.Before n
  only : ∀ x, ¬H.env.Known x → ¬Generated x → σ x = none

/-- What the map binds is new. -/
theorem Around.new (h : op.Around H n σ) (hop : op.WellNamed H.env) : ∀ x ∈ op.names, σ x = none :=
  fun x hx => h.only x (hop.unknown x hx) (hop.names x hx)

/-- The host knows no name of the form of those that are taken. -/
theorem WellNamed.scope_eq_none (h : op.WellNamed H.env) {x : Ident} (hx : Generated x) : H.scope x = none :=
  Surroundings.scope_eq_none fun hknown => h.hostNames x (hknown.imp (fun h => h) Or.inl) hx

theorem WellNamed.around (h : op.WellNamed H.env) (n : Nat) : op.Around H n H.scope :=
  ⟨Scope.Le.refl _, fun _ hx => h.scope_eq_none hx.generated, fun _ hx _ => Surroundings.scope_eq_none hx⟩

/-- A name that is taken may be known afterwards. -/
theorem Around.set (h : op.Around H n σ) (hop : op.WellNamed H.env)
    (hstem : stem ∈ uniformStems ++ ownStems ++ arrayStems ++ kernelStems) (hn : n ≤ m) (hk : k < m) (v : Value) :
    op.Around H m (σ.set (numbered stem k) v) where
  host := h.host.set_right (hop.scope_eq_none ⟨stem, hstem, k, rfl⟩)
  before := h.before.set hn hk
  only x hx hgenerated := by
    rw [Scope.set_of_ne fun e => hgenerated ⟨stem, hstem, k, e.symm⟩]
    exact h.only x hx hgenerated

/-- A new name adds to what is known. -/
theorem Around.le_set (h : op.Around H n σ) (hstem : stem ∈ uniformStems ++ ownStems ++ arrayStems ++ kernelStems)
    (hk : n ≤ k) {v : Value} : σ.Le (σ.set (numbered stem k) v) := Scope.le_set (h.before.fresh hstem hk)

/-- A group of a launch that runs the map. -/
structure Crew (op : SegOp) (H : Surroundings) (pattern : List PatElem) (ds : List Nat) (ws : List Write) (G : Team)
    (g : Nat) : Prop where
  stores : op.Stores H pattern ds G.ctx.loopLimit ws
  own : G.own = op.Owns H pattern ds G.size
  captured : G.ctx.captured = H.env.bindings H.host
  group : G.ctx.group = Int64.ofNat g

end Segmented

/-! ### Logical groups -/

namespace Team
variable {op : SegOp} {H : Surroundings} {pattern : List PatElem} {ds : List Nat} {ws past : List Write} {G : Team}
  {g n : Nat} {setting : Setting} {body results : Stmt}

/-- The memory after some writes of the map. -/
def reach (H : Surroundings) (past : List Write) : Store := (Store.ofGlobal H.memory).puts past

/-- The threads of a logical group visit their points. -/
theorem leads_visit (hG : op.Crew H pattern ds ws G g) (henv : setting.env = H.env)
    (C : op.Compiled setting pattern n body results) (hpast : ∀ w ∈ past, w ∈ ws) (coverage : Coverage)
    {σ : Nat → Scope} {q : Nat} {position : Exp} (hσ : ∀ t < G.size, op.Around H n (σ t))
    (hposition : ∀ t < G.size, IsInt (σ t) position ((q * G.size + t : Nat) : Int))
    (hfull : coverage = .full → ∀ t < G.size, q * G.size + t < ds.prod) :
    G.LeadsAll (G.Knowing σ) (reach H past) [.declareInit op.space.flat .i64 position,
      .unflatten op.space.extents (.var op.space.flat),
      .when (if coverage = .full then .bool true else (Exp.var op.space.flat).lt op.space.size)
        (.block [body, results])]
      (G.Knowing σ) (G.Apiece fun t => op.visit H pattern ds (q * G.size + t)) := by
  rw [← leads_block]
  refine Leads.apiece fun t ht th hth => ?_
  have stores := hG.stores
  have visited : ∀ w ∈ op.visit H pattern ds (q * G.size + t), w ∈ ws := fun w hw => stores.mem_iff.mpr ⟨_, hw⟩
  rw [Solo.ensures_block]
  refine Solo.ensures_point (E := G.member (reach H past) t) stores.housed stores.fits henv C
    ⟨(hσ t ht).host, ?_, ?_, stores.housed.sizes⟩
    (hσ t ht).before ((hσ t ht).new stores.housed.regular.wellNamed) (hposition t ht) (fun hc => hfull hc t ht)
    stores.stored ?_ hth
    fun th' hth' => ⟨hth', rfl⟩
  · -- What is read was not written.
    intro array harray
    refine (Store.buffer?_puts_of_forall_ne fun w hw _ e => ?_).trans rfl
    obtain ⟨f, hf⟩ := stores.mem_iff.mp (hpast w hw)
    exact harray (e ▸ (Segmented.slot_of_mem_visit hf).2)
  · rintro array i harray t' - hown
    rw [member, hG.own] at hown
    obtain ⟨f, -, w, hw, hslot⟩ := hown
    have := (Segmented.slot_of_mem_visit hw).2
    rw [hslot] at this
    exact harray this
  · intro w hw type shape hshape
    refine ⟨(stores.room w (visited w hw) type shape hshape).puts past, ?_⟩
    show G.own t w.slot
    rw [hG.own]
    refine ⟨_, ?_, w, hw, rfl⟩
    rw [Nat.mul_comm, Nat.mul_add_mod]
    exact Nat.mod_eq_of_lt ht

/-- The writes of some rounds, each of which visits a logical group, as often as they are made. -/
def Rounds (G : Team) (op : SegOp) (H : Surroundings) (pattern : List PatElem) (ds : List Nat) (P g k : Nat)
    (out : List Write) :
    Prop :=
  out.Perm ((Coverage.turns P G.size g k).flatMap (op.visit H pattern ds))

variable {P k : Nat} {out out' : List Write} {m : Store}

theorem Rounds.mem (h : G.Rounds op H pattern ds P g k out) (hstores : op.Stores H pattern ds G.ctx.loopLimit ws) :
    ∀ w ∈ out, w ∈ ws := by
  intro w hw
  obtain ⟨f, -, hw⟩ := List.mem_flatMap.mp (h.mem_iff.mp hw)
  exact hstores.mem_iff.mpr ⟨f, hw⟩

theorem Rounds.next (h : G.Rounds op H pattern ds P g k out)
    (h' : G.Apiece (fun t => op.visit H pattern ds ((g + k * P) * G.size + t)) out') :
    G.Rounds op H pattern ds P g (k + 1) (out ++ out') := by
  rw [Rounds, Coverage.turns_succ, List.flatMap_append, List.flatMap_map]
  exact h.append h'

theorem rounds_zero : G.Rounds op H pattern ds P g 0 [] := .refl _

/-- What the threads of a group know of its place in the launch. -/
structure Oriented (G : Team) (op : SegOp) (H : Surroundings) (launch : Launch) (g n : Nat) (σ : Nat → Scope) :
    Prop where
  around : ∀ t < G.size, op.Around H n (σ t)
  localId : ∀ t < G.size, σ t launch.localId = some (.i64 (Int64.ofNat t))
  groupId : ∀ t < G.size, σ t launch.groupId = some (.i64 (Int64.ofNat g))

/-- What a thread knows when it has asked for its place in the launch. -/
def placed (G : Team) (σ : Scope) (n t : Nat) : Scope :=
  (((σ.set (numbered "global_tid" n) (.i64 (Run.answer G.ctx t .globalId))).set
    (numbered "local_tid" (n + 1)) (.i64 (Run.answer G.ctx t .localId))).set
    (numbered "group_id" (n + 2)) (.i64 (Run.answer G.ctx t .groupId))).set
    (numbered "wave_size" (n + 3)) (.i64 (Run.answer G.ctx t .lockstepWidth))

/-- The group asks for its place in the launch. -/
theorem leads_start (hcaptured : G.ctx.captured = H.env.bindings H.host) (numGroups groupSize : Exp) :
    G.Leads (fun _ th => th = {}) m ((Launch.start numGroups groupSize).run n).1.2 (G.Knowing (G.placed H.scope n))
      (· = []) := by
  have start : ∀ t < G.size, ∀ th : Thread, th = {} → G.Knowing (fun _ => H.scope) t th := by
    rintro t - th rfl x v hx
    unfold Thread.scope
    rw [hcaptured]
    exact hx
  have first : G.Leads (fun _ th => th = {}) m (Launch.ask .globalId (numbered "global_tid" n)) _ (· = []) :=
    Takes.imp Leads.ask start (fun _ _ _ => id) fun _ => id
  exact leads_comment.mpr (leads_block.mpr
    (.after_silent first (.after_silent .ask (.after_silent .ask (leadsAll_singleton.mpr .ask)))))

/-- The group finds its place in the launch. -/
theorem leads_entry (hop : op.WellNamed H.env) (hcaptured : G.ctx.captured = H.env.bindings H.host)
    (hgroup : G.ctx.group = Int64.ofNat g) (numGroups groupSize : Exp) :
    G.Leads (fun _ th => th = {}) m ((Launch.start numGroups groupSize).run n).1.2 (G.Knowing (G.placed H.scope n))
      (· = []) ∧
      G.Oriented op H ((Launch.start numGroups groupSize).run n).1.1 g (n + 4) (G.placed H.scope n) := by
  refine ⟨leads_start hcaptured numGroups groupSize, ⟨fun t _ => ?_, fun t _ => ?_, fun t _ => ?_⟩⟩
  · exact ((((hop.around n).set hop (by decide) (Nat.le_succ n) (Nat.lt_succ_self n) _).set hop (by decide)
      (Nat.le_succ _) (Nat.lt_succ_self _) _).set hop (by decide) (Nat.le_succ _) (Nat.lt_succ_self _) _).set hop
        (by decide) (Nat.le_succ _) (Nat.lt_succ_self _) _
  · show G.placed H.scope n t (numbered "local_tid" (n + 1)) = _
    simp [placed, Scope.set, numbered_inj, Run.answer]
  · show G.placed H.scope n t (numbered "group_id" (n + 2)) = _
    simp [placed, Scope.set, numbered_inj, Run.answer, hgroup]

/-- The global index of a thread. -/
theorem Oriented.isInt_position {launch : Launch} {σ : Nat → Scope} (hσ : G.Oriented op H launch g n σ)
    (hgroupSize : IsInt H.scope launch.groupSize G.size) (hg : g < P) (hfits : Fits ((P * G.size : Nat) : Int))
    {t : Nat} (ht : t < G.size) :
    IsInt (σ t) (launch.gid * launch.groupSize + launch.ltid) ((g * G.size + t : Nat) : Int) := by
  have hroom : (g + 1) * G.size ≤ P * G.size := Nat.mul_le_mul_right _ hg
  rw [Nat.succ_mul] at hroom
  have fits : ∀ k : Nat, k ≤ P * G.size → Fits (k : Int) := by
    intro k hk
    unfold Fits at *
    omega
  have hle := Nat.le_mul_of_pos_right g G.pos
  have hgid : IsInt (σ t) launch.gid g := .var_nat (hσ.groupId t ht) (fits g (by omega))
  have hltid : IsInt (σ t) launch.ltid t := .var_nat (hσ.localId t ht) (fits t (by omega))
  have := (hgid.mul (hgroupSize.mono (hσ.around t ht).host) (by exact_mod_cast fits (g * G.size) (by omega))).add hltid
    (by exact_mod_cast fits (g * G.size + t) (by omega))
  exact_mod_cast this

/-- The number of the rounds of a group. -/
theorem rounds_isInt {σ : Scope} {x y z : Exp} {R : Nat} (hx : IsInt σ x R) (hy : IsInt σ y g) (hz : IsInt σ z P)
    (hg : g < P) (hfits : Fits ((R + P : Nat) : Int)) :
    IsInt σ ((x - y).divUp z) (((R - g + P - 1) / P : Nat) : Int) := by
  have fits : ∀ i : Int, -P ≤ i → i ≤ R + P → Fits i := by
    intro i hi hi'
    unfold Fits at *
    omega
  have hsum := ((hx.sub hy (fits _ (by omega) (by omega))).add hz (fits _ (by omega) (by omega))).sub (.int 1)
    (show Fits ((R : Int) - g + P - 1) from fits _ (by omega) (by omega))
  have hvalue : (((R - g + P - 1) / P : Nat) : Int) = ((R : Int) - g + P - 1) / P := by
    by_cases h : g ≤ R
    · rw [Int.natCast_ediv, show ((R - g + P - 1 : Nat) : Int) = (R : Int) - g + P - 1 by omega]
    · rw [Int.ediv_eq_zero_of_lt (by omega) (by omega), Nat.div_eq_of_lt (by omega)]
      rfl
  rw [hvalue]
  exact hsum.div hz (by show 0 ≤ (R : Int) - g + P - 1; omega) (by omega)

theorem isInt_size (hG : op.Crew H pattern ds ws G g) : IsInt H.scope op.space.size ds.prod :=
  isInt_product (List.forall₂_map_right_iff.mp hG.stores.housed.extents) hG.stores.fits

/-- The group visits the logical group of its own number. -/
theorem leads_direct (hG : op.Crew H pattern ds ws G g) (henv : setting.env = H.env)
    (C : op.Compiled setting pattern n body results) (hpast : ∀ w ∈ past, w ∈ ws) {launch : Launch} {σ : Nat → Scope}
    (hσ : G.Oriented op H launch g n σ) (hgroupSize : IsInt H.scope launch.groupSize G.size) (hg : g < P)
    (hfits : Fits ((P * G.size : Nat) : Int)) :
    G.Leads (G.Knowing σ) (reach H past)
      ((Launch.atPoint {} .direct op.space (launch.gid * launch.groupSize + launch.ltid)).wrap (.block [body, results]))
      (G.Knowing σ) (G.Rounds op H pattern ds P g 1) := by
  have visits := leads_visit hG henv C hpast .direct hσ.around (fun t ht => hσ.isInt_position hgroupSize hg hfits ht)
    fun h => by cases h
  refine leads_block.mpr (Takes.imp visits (fun _ _ _ => id) (fun _ _ _ => id) fun out hout => ?_)
  have first : G.Rounds op H pattern ds P g 0 [] := rounds_zero
  refine first.next ?_
  rwa [Nat.zero_mul, Nat.add_zero]

/-- What a thread knows when the rounds of its group are counted. -/
def counted (G : Team) (σ : Scope) (n count : Nat) : Scope :=
  (σ.set (numbered "phys_group_id" n) (.i64 (Run.answer G.ctx 0 .groupId))).set (numbered "iterations" (n + 1))
    (.i64 (Int64.ofNat count))

section Counted
variable {σ : Scope} {count : Nat}

theorem counted_around (hop : op.WellNamed H.env) (h : op.Around H n σ) : op.Around H (n + 2) (G.counted σ n count) :=
  (h.set hop (by decide) (Nat.le_succ n) (Nat.lt_succ_self n) _).set hop (by decide) (Nat.le_succ _)
    (Nat.lt_succ_self _) _

theorem le_counted (hop : op.WellNamed H.env) (h : op.Around H n σ) : σ.Le (G.counted σ n count) :=
  (h.le_set (by decide) (Nat.le_refl n)).trans
    ((h.set hop (by decide) (Nat.le_succ n) (Nat.lt_succ_self n) _).le_set (by decide) (Nat.le_refl _))

theorem counted_physical : G.counted σ n count (numbered "phys_group_id" n) = some (.i64 G.ctx.group) := by
  simp [counted, Scope.set, numbered_inj, Run.answer]

end Counted

/-- The group counts the rounds for which it has the turn, if there are `R` in all, and goes through them. -/
theorem leads_rounds (hop : op.WellNamed H.env) (hgroup : G.ctx.group = Int64.ofNat g) {σ : Nat → Scope}
    (hσ : ∀ t < G.size, op.Around H n (σ t)) {required numGroups : Exp} {R : Nat} (hrequired : IsInt H.scope required R)
    (hnumGroups : IsInt H.scope numGroups P) (hg : g < P) (hfits : Fits ((R + P : Nat) : Int))
    (hlimit : (R - g + P - 1) / P ≤ G.ctx.loopLimit) {round : Stmt} (Q : Nat → List Write → Prop) (hQ : Q 0 [])
    (hround : ∀ k < (R - g + P - 1) / P, ∀ out, Q k out →
      G.Leads (Given (G.Knowing fun t => G.counted (σ t) n ((R - g + P - 1) / P)) (numbered "i" (n + 2))
        (.i64 (Int64.ofNat k)))
        (m.puts out) round (G.Knowing fun t => G.counted (σ t) n ((R - g + P - 1) / P)) fun out' =>
          Q (k + 1) (out ++ out')) :
    G.Leads (G.Knowing σ) m (.block [Launch.ask .groupId (numbered "phys_group_id" n),
      .declareInit (numbered "iterations" (n + 1)) .i64
        ((required - .var (numbered "phys_group_id" n)).divUp numGroups),
      .loop (numbered "i" (n + 2)) (.var (numbered "iterations" (n + 1))) round])
      (G.Knowing σ) (Q ((R - g + P - 1) / P)) := by
  let σ₁ : Nat → Scope := fun t => (σ t).set (numbered "phys_group_id" n) (.i64 (Run.answer G.ctx t .groupId))
  have around₁ : ∀ t < G.size, op.Around H (n + 1) (σ₁ t) := fun t ht =>
    (hσ t ht).set hop (by decide) (Nat.le_succ n) (Nat.lt_succ_self n) _
  have rounds : ∀ t < G.size, IsInt (σ₁ t) ((required - .var (numbered "phys_group_id" n)).divUp numGroups)
      (((R - g + P - 1) / P : Nat) : Int) := by
    intro t ht
    have physical : IsInt (σ₁ t) (.var (numbered "phys_group_id" n)) g := by
      refine .var_nat (by rw [← hgroup]; exact Scope.set_self) ?_
      unfold Fits at *
      omega
    exact rounds_isInt (hrequired.mono (around₁ t ht).host) physical (hnumGroups.mono (around₁ t ht).host) hg hfits
  generalize (R - g + P - 1) / P = count at *
  have hcount : (Int64.ofNat count).toInt.toNat = count := by
    rw [toInt_ofNat_of_fits (rounds 0 G.pos).fits, Int.toNat_natCast]
  -- The limit and the claims are stated for the count as a number, which it is as an `Int64` too.
  have loop : G.Leads (G.Knowing fun t => G.counted (σ t) n count) m
      (.loop (numbered "i" (n + 2)) (.var (numbered "iterations" (n + 1))) round)
      (G.Knowing fun t => G.counted (σ t) n count) (Q count) := by
    rw [← hcount]
    refine Leads.loop (fun _ => G.Knowing fun t => G.counted (σ t) n (Int64.ofNat count).toInt.toNat) Q
      (by rwa [hcount]) ?_ ?_ hQ
    · intro t ht th hth
      have hvalue : (th.scope G.ctx.captured) (numbered "iterations" (n + 1)) =
          some (.i64 (Int64.ofNat (Int64.ofNat count).toInt.toNat)) := hth _ _ Scope.set_self
      rw [evalInt, eval, hvalue, hcount]
    · rw [hcount]
      exact hround
  refine leads_block.mpr (.after_silent .ask
    (.after_silent (.declareInit ?_ (fun t ht => (rounds t ht).eval_nat) fun _ _ => rfl)
    (leadsAll_singleton.mpr (loop.imp (fun _ _ _ => id) ?_ fun _ => id))))
  · exact fun t ht => (around₁ t ht).before.fresh (by decide) (Nat.le_refl _)
  · exact fun t ht th hth => (le_counted hop (hσ t ht)).trans hth

/-- The group takes the logical groups of which it has the turn, one after another, if there are `R` in all. It knows
    which one it has taken, and a barrier ends each turn. -/
theorem leads_turns (hop : op.WellNamed H.env) (hgroup : G.ctx.group = Int64.ofNat g) {launch : Launch}
    {σ : Nat → Scope} (hσ : G.Oriented op H launch g n σ) {required : Exp} {R : Nat}
    (hrequired : IsInt H.scope required R) (hnumGroups : IsInt H.scope launch.numGroups P) (hg : g < P)
    (hfits : Fits ((R + P : Nat) : Int)) (hlimit : (R - g + P - 1) / P ≤ G.ctx.loopLimit) (stmts : List Stmt)
    (Q : Nat → List Write → Prop) (hQ : Q 0 [])
    (hturn : ∀ τ, (∀ t < G.size, (σ t).Le (τ t)) → G.Oriented op H launch g (n + 4) τ → ∀ k out, Q k out →
      g + k * P < R →
      (∀ t < G.size, IsInt (τ t) (.var (numbered "virt_group_id" (n + 3))) ((g + k * P : Nat) : Int)) →
        G.LeadsAll (G.Knowing τ) (m.puts out) stmts (G.Knowing τ) fun out' => Q (k + 1) (out ++ out')) :
    G.Leads (G.Knowing σ) m (.block [Launch.ask .groupId (numbered "phys_group_id" n),
      .declareInit (numbered "iterations" (n + 1)) .i64
        ((required - .var (numbered "phys_group_id" n)).divUp launch.numGroups),
      .loop (numbered "i" (n + 2)) (.var (numbered "iterations" (n + 1)))
        (.block (.declareInit (numbered "virt_group_id" (n + 3)) .i64
        (.var (numbered "phys_group_id" n) + .var (numbered "i" (n + 2)) * launch.numGroups) ::
          (stmts ++ [.barrier .global])))])
      (G.Knowing σ) (Q ((R - g + P - 1) / P)) := by
  have hP : 0 < P := Nat.zero_lt_of_lt hg
  refine leads_rounds hop hgroup hσ.around hrequired hnumGroups hg hfits hlimit Q hQ fun k hk out hout => ?_
  have hq : g + k * P < R := by
    have := (Coverage.lt_rounds (n := R) (G := 1) (g := g) (j := k) hP).mp (by simpa using hk)
    simpa using this
  generalize (R - g + P - 1) / P = count at *
  let σ₂ : Nat → Scope := fun t => G.counted (σ t) n count
  have around₂ : ∀ t < G.size, op.Around H (n + 2) (σ₂ t) := fun t ht => counted_around hop (hσ.around t ht)
  let σ₃ : Nat → Scope := fun t => (σ₂ t).set (numbered "i" (n + 2)) (.i64 (Int64.ofNat k))
  have around₃ : ∀ t < G.size, op.Around H (n + 3) (σ₃ t) := fun t ht =>
    (around₂ t ht).set hop (by decide) (Nat.le_succ _) (Nat.lt_succ_self _) _
  have more : ∀ t < G.size, (σ₂ t).Le (σ₃ t) := fun t ht => (around₂ t ht).le_set (by decide) (Nat.le_refl _)
  -- The group visited in round `k` is the physical one, plus `k` times their number.
  have logical : ∀ t < G.size, IsInt (σ₃ t)
    (.var (numbered "phys_group_id" n) + .var (numbered "i" (n + 2)) * launch.numGroups)
      ((g + k * P : Nat) : Int) := by
    intro t ht
    have fits : ∀ l : Nat, l ≤ g + k * P → Fits (l : Int) := by
      intro l hl
      unfold Fits at *
      omega
    have hle := Nat.le_mul_of_pos_right k hP
    have hk' : IsInt (σ₃ t) (.var (numbered "i" (n + 2))) k := .var_nat Scope.set_self (fits k (by omega))
    have hphysical : IsInt (σ₃ t) (.var (numbered "phys_group_id" n)) g :=
      .var_nat (by rw [← hgroup]; exact more t ht _ _ counted_physical) (fits g (by omega))
    have := hphysical.add (hk'.mul (hnumGroups.mono (around₃ t ht).host) (by exact_mod_cast fits (k * P) (by omega)))
      (by exact_mod_cast fits _ (Nat.le_refl _))
    exact_mod_cast this
  let σ₄ : Nat → Scope := fun t => (σ₃ t).set (numbered "virt_group_id" (n + 3)) (.i64 (Int64.ofNat (g + k * P)))
  have unknown : ∀ t < G.size, σ₃ t (numbered "virt_group_id" (n + 3)) = none := fun t ht =>
    (around₃ t ht).before.fresh (by decide) (Nat.le_refl _)
  have most : ∀ t < G.size, (σ₃ t).Le (σ₄ t) := fun t ht => Scope.le_set (unknown t ht)
  have known : ∀ t < G.size, (σ t).Le (σ₄ t) := fun t ht =>
    (le_counted hop (hσ.around t ht)).trans ((more t ht).trans (most t ht))
  have oriented : G.Oriented op H launch g (n + 4) σ₄ :=
    ⟨fun t ht => (around₃ t ht).set hop (by decide) (Nat.le_succ _) (Nat.lt_succ_self _) _,
      fun t ht => known t ht _ _ (hσ.localId t ht), fun t ht => known t ht _ _ (hσ.groupId t ht)⟩
  have turn := hturn σ₄ known oriented k out hout hq fun t ht => .var_nat Scope.set_self (logical t ht).fits
  have last : ∀ out', Q (k + 1) (out ++ out') → G.LeadsAll (G.Knowing σ₄) ((m.puts out).puts out') [.barrier .global]
      (G.Knowing σ₂) fun ws => Q (k + 1) (out ++ (out' ++ ws)) := fun out' hout' =>
    leadsAll_singleton.mpr (leads_barrier (fun t ht th hth => (more t ht).trans ((most t ht).trans hth))
      (by rwa [List.append_nil]))
  refine leads_block.mpr (Takes.imp
    (LeadsAll.after_silent (.declareInit unknown (fun t ht => (logical t ht).eval_nat) fun _ _ => rfl)
    (turn.append last)) ?_ (fun _ _ _ => id) fun _ => id)
  rintro t ht th ⟨before, hbefore, rfl⟩
  exact Thread.set_le_scope_bind hbefore

/-- The group visits the logical groups of which it has the turn, one after another. -/
theorem leads_loop (hG : op.Crew H pattern ds ws G g) (henv : setting.env = H.env)
    (C : op.Compiled setting pattern (n + 4) body results) (hpast : ∀ w ∈ past, w ∈ ws) (coverage : Coverage)
    {launch : Launch} {σ : Nat → Scope} (hσ : G.Oriented op H launch g n σ)
    (hnumGroups : IsInt H.scope launch.numGroups P) (hgroupSize : IsInt H.scope launch.groupSize G.size) (hg : g < P)
    (hbounded : Coverage.Bounded ds.prod P G.size G.ctx.loopLimit) (hfull : coverage = .full → G.size ∣ ds.prod) :
    G.Leads (G.Knowing σ) (reach H past)
      ((Launch.atPoint {
        setup := [Launch.ask .groupId (numbered "phys_group_id" n), .declareInit (numbered "iterations" (n + 1)) .i64
          ((op.space.size.divUp launch.groupSize - .var (numbered "phys_group_id" n)).divUp launch.numGroups)]
        counted := some (numbered "i" (n + 2), .var (numbered "iterations" (n + 1)))
        before := [.declareInit (numbered "virt_group_id" (n + 3)) .i64
          (.var (numbered "phys_group_id" n) + .var (numbered "i" (n + 2)) * launch.numGroups)]
        after := [.barrier .global] } coverage op.space
          (.var (numbered "virt_group_id" (n + 3)) * launch.groupSize + launch.ltid)).wrap (.block [body, results]))
      (G.Knowing σ) (G.Rounds op H pattern ds P g (((ds.prod + G.size - 1) / G.size - g + P - 1) / P)) := by
  have required : IsInt H.scope (op.space.size.divUp launch.groupSize)
    (((ds.prod + G.size - 1) / G.size : Nat) : Int) :=
    (isInt_size hG).divUp hgroupSize G.pos (by exact_mod_cast hbounded.points)
  have hlimit : ((ds.prod + G.size - 1) / G.size - g + P - 1) / P ≤ G.ctx.loopLimit :=
    Nat.le_trans (Nat.div_le_div_right (Nat.sub_le_sub_right (Nat.add_le_add_right (Nat.sub_le _ _) P) 1))
      hbounded.rounds
  have turns := leads_turns (m := reach H past) hG.stores.housed.regular.wellNamed hG.group hσ required hnumGroups hg
    hbounded.groups hlimit
    [.declareInit op.space.flat .i64 (.var (numbered "virt_group_id" (n + 3)) * launch.groupSize + launch.ltid),
      .unflatten op.space.extents (.var op.space.flat),
      .when (if coverage = .full then .bool true else (Exp.var op.space.flat).lt op.space.size)
        (.block [body, results])]
    (G.Rounds op H pattern ds P g) rounds_zero
  refine turns fun τ _ hτ k out hout hq hlogical => ?_
  -- What the rounds before have written is, like what was there at the start, among all writes.
  have hpast' : ∀ w ∈ past ++ out, w ∈ ws := fun w hw =>
    (List.mem_append.mp hw).elim (hpast w) (hout.mem hG.stores w)
  have fits : ∀ i : Nat, i ≤ ds.prod + G.size → Fits (i : Int) := by
    have := hbounded.points
    intro i hi
    unfold Fits at *
    omega
  have position : ∀ t < G.size, IsInt (τ t) (.var (numbered "virt_group_id" (n + 3)) * launch.groupSize + launch.ltid)
      (((g + k * P) * G.size + t : Nat) : Int) := by
    intro t ht
    have hroom := Coverage.point_lt hq ht
    have hltid : IsInt (τ t) launch.ltid t := .var_nat (hτ.localId t ht) (fits t (by omega))
    have := ((hlogical t ht).mul (hgroupSize.mono (hτ.around t ht).host)
      (by exact_mod_cast fits ((g + k * P) * G.size) (by omega))).add hltid
        (by exact_mod_cast fits _ (Nat.le_of_lt hroom))
    exact_mod_cast this
  have visits := leads_visit hG henv C hpast' coverage hτ.around position fun hc t ht =>
    Coverage.point_lt_of_dvd G.pos (hfull hc) hq ht
  rw [reach, Store.puts_append] at visits
  exact Takes.imp visits (fun _ _ _ => id) (fun _ _ _ => id) fun _ => hout.next

/-- A group that has found its place visits all logical groups of which it has the turn. -/
theorem leads_coverByThreads (hG : op.Crew H pattern ds ws G g) (henv : setting.env = H.env) (coverage : Coverage)
    {launch : Launch} (C : op.Compiled setting pattern ((launch.coverByThreads coverage op.space).run n).2 body results)
    (hpast : ∀ w ∈ past, w ∈ ws) {σ : Nat → Scope} (hσ : G.Oriented op H launch g n σ)
    (hnumGroups : IsInt H.scope launch.numGroups P) (hgroupSize : IsInt H.scope launch.groupSize G.size) (hg : g < P)
    (hgrid : coverage.Suffices ds.prod P G.size G.ctx.loopLimit) :
    G.Leads (G.Knowing σ) (reach H past)
      (((launch.coverByThreads coverage op.space).run n).1.wrap (.block [body, results])) (G.Knowing σ)
      (G.Rounds op H pattern ds P g (coverage.rounds ds.prod P G.size g)) := by
  cases coverage with
  | direct => exact leads_direct hG henv C hpast hσ hgroupSize hg hgrid.2
  | virtualize => exact leads_loop hG henv C hpast .virtualize hσ hnumGroups hgroupSize hg hgrid fun h => by cases h
  | full => exact leads_loop hG henv C hpast .full hσ hnumGroups hgroupSize hg hgrid.2 fun _ => hgrid.1

end Team
end SegKernel
