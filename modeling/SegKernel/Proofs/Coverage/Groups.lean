import Mathlib.Data.List.Nodup
import Mathlib.Data.List.Range
import Mathlib.Data.List.Sort
import SegKernel.Lowering.Program
import SegKernel.Proofs.Convergence.Counted
import SegKernel.Proofs.Convergence.Kernels
import SegKernel.Proofs.Evaluation.Known
import SegKernel.Proofs.Evaluation.Words
import SegKernel.Proofs.Execution.Declaring
import SegKernel.Proofs.Execution.Launching

/-! How the groups of a launch take turns with more logical groups than there are groups. A group does what
    straight code does that visits its logical groups one after another, and each logical group is visited
    by one group. -/

namespace SegKernel
open Exp Run

/-! ### Logical groups -/

namespace Launch
variable {M : Int} {P p q : Nat}

/-- The logical groups, of `required` in all, that group `p` of `P` visits: `p`, `p + P`, and so on. -/
def visited (required : Int) (P p : Nat) : List Nat := List.range' p ((required.toNat - p + P - 1) / P) P

theorem mem_visited (hp : p < P) : q ∈ visited M P p ↔ (q : Int) < M ∧ q % P = p := by
  have hP : 0 < P := Nat.zero_lt_of_lt hp
  have lt_rounds : ∀ k, k < (M.toNat - p + P - 1) / P ↔ p + P * k < M.toNat := fun k => by
    rw [← Nat.add_one_le_iff, Nat.le_div_iff_mul_le hP, Nat.succ_mul, Nat.mul_comm k]
    omega
  rw [visited, List.mem_range']
  constructor
  · rintro ⟨k, hk, rfl⟩
    have := (lt_rounds k).mp hk
    exact ⟨by omega, by rw [Nat.add_mul_mod_self_left, Nat.mod_eq_of_lt hp]⟩
  · rintro ⟨hlt, rfl⟩
    have hsplit := Nat.mod_add_div q P
    exact ⟨q / P, (lt_rounds _).mpr (by omega), hsplit.symm⟩

/-- They are the logical groups with one remainder, in their order. -/
theorem visited_eq_filter (hp : p < P) : visited M P p = (List.range M.toNat).filter fun q => q % P = p := by
  refine List.Perm.eq_of_pairwise (fun a b _ _ (h : a < b) h' => absurd h (Nat.lt_asymm h'))
    (List.pairwise_lt_range' P (Nat.zero_lt_of_lt hp)) (List.pairwise_lt_range.filter _) ?_
  refine (List.perm_ext_iff_of_nodup (List.nodup_range' P (Nat.zero_lt_of_lt hp)) (List.nodup_range.filter _)).mpr
    fun q => ?_
  show q ∈ visited M P p ↔ _
  rw [mem_visited hp, List.mem_filter, List.mem_range, decide_eq_true_eq, Int.lt_toNat]

/-- Each logical group is visited once. -/
theorem flatMap_visited (M : Int) (P : Nat) (hP : 0 < P) :
    ((List.range P).flatMap (visited M P)).Perm (List.range M.toNat) := by
  refine (List.perm_ext_iff_of_nodup (List.nodup_flatMap.mpr ⟨fun p hp => ?_, ?_⟩) List.nodup_range).mpr fun q => ?_
  · exact List.nodup_range' P hP
  · refine List.pairwise_lt_range.imp_of_mem fun {p p'} hp hp' hlt => ?_
    intro q hq hq'
    have := ((mem_visited (List.mem_range.mp hp)).mp hq).2
    have := ((mem_visited (List.mem_range.mp hp')).mp hq').2
    omega
  · simp only [List.mem_flatMap, List.mem_range]
    constructor
    · rintro ⟨p, hp, hq⟩
      have := ((mem_visited hp).mp hq).1
      omega
    · exact fun hq => ⟨q % P, Nat.mod_lt q hP, (mem_visited (Nat.mod_lt q hP)).mpr ⟨by omega, rfl⟩⟩

/-- The number of rounds as the code computes it, where the number of logical groups may be negative. -/
theorem tdiv_rounds (hp : p < P) : ((M - p + P - 1).tdiv P).toNat = (M.toNat - p + P - 1) / P := by
  by_cases hnonneg : 0 ≤ M - p + P - 1
  · rw [Int.tdiv_eq_ediv_of_nonneg hnonneg]
    by_cases hle : (p : Int) ≤ M
    · rw [show M - p + P - 1 = ((M.toNat - p + P - 1 : Nat) : Int) by omega, ← Int.natCast_ediv, Int.toNat_natCast]
    · rw [Int.ediv_eq_zero_of_lt hnonneg (by omega), Nat.div_eq_of_lt (by omega), Int.toNat_zero]
  · have hneg := Int.tdiv_nonneg (show 0 ≤ -(M - p + P - 1) by omega) (show (0 : Int) ≤ P by omega)
    rw [Int.neg_tdiv] at hneg
    rw [Nat.div_eq_of_lt (by omega)]
    omega

end Launch

/-! ### Visits -/

/-- Quiet code counts no barriers. -/
theorem Quiet.barriers {U : Common} {ctx : GroupContext} {stmt : Stmt} (q : Quiet U stmt) {active : List Nat}
    {s s' : GroupState} (h : exec ctx stmt active s = .ok () s') : s'.stats.barriers = s.stats.barriers := by
  have := exec_counts ctx stmt active s
  rwa [ending, h, show trace maskAt ctx stmt active s = [] from q.masks] at this

namespace Launch

/-- The code of a visit: all threads learn of the round and of the logical group, and a barrier follows the
    body. The names are those from number `n` on. -/
def visit (n P : Nat) (body : Stmt) (group : Nat) : List Stmt := [
  .declareInit (numbered "i" (n + 2)) .i64 (.int (Int64.ofNat (group / P))),
  .declareInit (numbered "virt_group_id" (n + 3)) .i64 (.int (Int64.ofNat group)),
  body,
  .barrier .global]

/-- What a body has to leave alone: the physical group, and the number of groups. -/
def rotation (l : Launch) (n : Nat) : Common := .scalars (numbered "phys_group_id" n :: l.numGroups.occurrences)

/-- The threads of group `p` of `P` know its place. -/
structure Rotates (l : Launch) (n : Nat) (ctx : GroupContext) (active : List Nat) (P p : Nat) (s : GroupState) :
    Prop where
  size : ∀ t ∈ active, t < s.threads.size
  physical : ∀ t ∈ active, s.scope ctx t (numbered "phys_group_id" n) = some (.i64 (Int64.ofNat p))
  numGroups : ∀ t ∈ active, l.numGroups.eval (s.scope ctx t) = .ok (.i64 (Int64.ofNat P))

variable {l : Launch} {ctx : GroupContext} {n P p q k : Nat} {active : List Nat} {body : Stmt} {s s' : GroupState}

theorem Rotates.keeps (h : l.Rotates n ctx active P p s) (hkeeps : Keeps (l.rotation n) s s') :
    l.Rotates n ctx active P p s' where
  size t ht := by
    rw [hkeeps.size]
    exact h.size t ht
  physical t ht := by
    rw [hkeeps.scope ctx List.mem_cons_self]
    exact h.physical t ht
  numGroups t ht := by
    rw [hkeeps.eval ctx fun y hy => List.mem_cons_of_mem _ hy]
    exact h.numGroups t ht

section Rounds
variable (hnd : active.Nodup) (hne : active ≠ []) (hold : ∀ y ∈ l.numGroups.occurrences, ¬New n y)
include hold

/-- The names of a visit are none that it has to leave alone. -/
theorem not_rotation {stem : String} (hstem : stem ∈ uniformStems ++ ownStems ++ arrayStems ++ kernelStems)
    (hk : n < k) :
    ¬l.rotation n (numbered stem k) := by
  intro h
  rcases List.mem_cons.mp h with e | hmem
  · have := (numbered_inj.mp e).2
    omega
  · exact hold _ hmem (new_numbered hstem (Nat.le_of_lt hk))

section
include hnd

/-- A round of the loop is a visit. -/
theorem round_eq (hp : p < P) (h : l.Rotates n ctx active P p s) :
    loopRound ctx (numbered "i" (n + 2)) (.block [
      .declareInit (numbered "virt_group_id" (n + 3)) .i64 (.var (numbered "phys_group_id" n) +
        .var (numbered "i" (n + 2)) * l.numGroups), body, .barrier .global]) active k s =
      execAll ctx (visit n P body (p + k * P)) active s := by
  have hP : 0 < P := Nat.zero_lt_of_lt hp
  let s₁ := s.modifyAll active fun _ th => th.bind (numbered "i" (n + 2)) (.i64 (Int64.ofNat k))
  have hsize₁ : ∀ t ∈ active, t < s₁.threads.size := fun t ht => by
    rw [GroupState.size_modifyAll]
    exact h.size t ht
  have hi : exec ctx (.declareInit (numbered "i" (n + 2)) .i64 (.int (Int64.ofNat ((p + k * P) / P)))) active s =
    .ok () s₁ := by
    rw [Nat.add_mul_div_right _ _ hP, Nat.div_eq_of_lt hp, Nat.zero_add]
    exact exec_declareInit hnd h.size (over_int _) (fun _ _ => rfl) fun _ _ => rfl
  have hkeeps : Keeps (l.rotation n) s s₁ :=
    (Quiet.declareInit (not_rotation hold (by decide) (Nat.lt_add_of_pos_right (by decide)))).keeps hi
  have h₁ := h.keeps hkeeps
  have scope_i : ∀ t ∈ active, s₁.scope ctx t (numbered "i" (n + 2)) = some (.i64 (Int64.ofNat k)) := fun t ht => by
    rw [GroupState.scope_eq, GroupState.thread_modifyAll ht (h.size t ht)]
    exact Thread.scope_bind_self ..
  -- The number of the visited group is computed from the variables that the loop keeps.
  have logical : ∀ x : Exp, x.Over (.except (numbered "virt_group_id" (n + 3))) →
      (∀ t ∈ active, x.eval (s₁.scope ctx t) = .ok (.i64 (Int64.ofNat (p + k * P)))) →
      exec ctx (.declareInit (numbered "virt_group_id" (n + 3)) .i64 x) active s₁ = .ok ()
        (s₁.modifyAll active fun _ th =>
        th.bind (numbered "virt_group_id" (n + 3)) (.i64 (Int64.ofNat (p + k * P)))) := fun x hname hx =>
    exec_declareInit hnd hsize₁ hname hx fun _ _ => rfl
  rw [visit, execAll_of_ok hi, execAll_of_ok (logical _ (over_int _) fun _ _ => rfl), loopRound, exec_block]
  refine execAll_of_ok (logical _ ?_ fun t ht => ?_)
  · have other : ∀ {stem : String} {k : Nat}, k < n + 3 →
        (Exp.var (numbered stem k)).Over (.except (numbered "virt_group_id" (n + 3))) :=
      fun hk => over_var.mpr fun e => Nat.ne_of_lt hk (numbered_inj.mp e).2
    have hfree : l.numGroups.Over (.except (numbered "virt_group_id" (n + 3))) := by
      rintro y hy rfl
      exact hold _ hy (new_numbered (by decide) (Nat.le_add_right n 3))
    exact over_add (other (by omega)) (over_mul (other (by omega)) hfree)
  · rw [Int64.ofNat_add, Int64.ofNat_mul]
    exact eval_add (eval_var (h₁.physical t ht)) (eval_mul (eval_var (scope_i t ht)) (h₁.numGroups t ht))

end

variable (hbody : Quiet (l.rotation n) body)
include hbody

/-- A visit leaves the place of the group, and counts a barrier. -/
theorem visit_ok (hne : active ≠ []) (h : execAll ctx (visit n P body q) active s = .ok () s') :
    Keeps (l.rotation n) s s' ∧ s'.stats.barriers = s.stats.barriers + 1 := by
  rw [visit, execAll_cons, execAll_cons, execAll_cons, execAll_singleton] at h
  obtain ⟨_, s₁, h₁, h⟩ := bind_eq_ok.mp h
  obtain ⟨_, s₂, h₂, h⟩ := bind_eq_ok.mp h
  obtain ⟨_, s₃, h₃, h⟩ := bind_eq_ok.mp h
  have hi : Quiet (l.rotation n) (.declareInit (numbered "i" (n + 2)) .i64 (.int (Int64.ofNat (q / P)))) :=
    .declareInit (not_rotation hold (by decide) (by omega))
  have hlogical : Quiet (l.rotation n) (.declareInit (numbered "virt_group_id" (n + 3)) .i64 (.int (Int64.ofNat q))) :=
    .declareInit (not_rotation hold (by decide) (by omega))
  rw [exec, if_neg (by simpa using hne)] at h
  obtain rfl := modify_eq_ok.mp h
  refine ⟨((hi.keeps h₁).trans (hlogical.keeps h₂)).trans ((hbody.keeps h₃).trans (Keeps.of_threads rfl)), ?_⟩
  rw [← hi.barriers h₁, ← hlogical.barriers h₂, ← hbody.barriers h₃]
  rfl

include hnd hne

/-- The rounds of the loop are visits. -/
theorem rounds_eq (hp : p < P) : ∀ (count k : Nat) (s : GroupState), l.Rotates n ctx active P p s →
    countUp (loopRound ctx (numbered "i" (n + 2)) (.block [
      .declareInit (numbered "virt_group_id" (n + 3)) .i64 (.var (numbered "phys_group_id" n) +
        .var (numbered "i" (n + 2)) * l.numGroups), body, .barrier .global]) active) count k s =
      execAll ctx ((List.range' (p + k * P) count P).flatMap (visit n P body)) active s
  | 0, k, s, _ => by
    rw [List.range'_zero, List.flatMap_nil, execAll_nil]
    rfl
  | count + 1, k, s, h => by
    rw [countUp, List.range'_succ, List.flatMap_cons, execAll_append, bind_apply, bind_apply, round_eq hnd hold hp h]
    cases hvisit : execAll ctx (visit n P body (p + k * P)) active s with
    | error fault s' => rfl
    | ok _ s' =>
      have hkeeps := (visit_ok hold hbody hne hvisit).1
      dsimp only
      rw [rounds_eq hp count (k + 1) s' (h.keeps hkeeps), Nat.succ_mul, Nat.add_assoc]

end Rounds

/-! ### A group -/

/-- The code before the loop: the group asks for its number, and counts its rounds. -/
def beforeRounds (l : Launch) (n : Nat) (required : Exp) : List Stmt := [
  ask .groupId (numbered "phys_group_id" n),
  .declareInit (numbered "iterations" (n + 1)) .i64 ((required - .var (numbered "phys_group_id" n)).divUp l.numGroups)]

/-- With virtualization, also of a full space, logical groups are visited in a loop. -/
theorem coverGroups_eq {coverage : Coverage} (hcoverage : coverage ≠ .direct) (required : Exp) :
    ((l.coverGroups coverage required).run n).1 = (.var (numbered "virt_group_id" (n + 3)), {
      setup := l.beforeRounds n required
      counted := some (numbered "i" (n + 2), .var (numbered "iterations" (n + 1)))
      before := [.declareInit (numbered "virt_group_id" (n + 3)) .i64
        (.var (numbered "phys_group_id" n) + .var (numbered "i" (n + 2)) * l.numGroups)]
      after := [.barrier .global] }) := by
  cases coverage with
  | direct => exact absurd rfl hcoverage
  | virtualize => rfl
  | full => rfl

/-- How many rounds a group has to make, from its place. -/
theorem Rotates.isInt_rounds (h : l.Rotates n ctx active P p s) (hp : p < P) {M : Int64}
    (hfits : SegKernel.Fits (M.toInt.natAbs + P)) {t : Nat} (ht : t ∈ active) {required : Exp}
    (hrequired : required.eval (s.scope ctx t) = .ok (.i64 M)) :
    IsInt (s.scope ctx t) ((required - .var (numbered "phys_group_id" n)).divUp l.numGroups)
      ((M.toInt - p + P - 1).tdiv P) := by
  have fits : ∀ j : Int, -(M.toInt.natAbs + P) ≤ j → j ≤ M.toInt.natAbs + P → SegKernel.Fits j := by
    intro j hj hj'
    unfold SegKernel.Fits at *
    omega
  have hphysical : IsInt (s.scope ctx t) (.var (numbered "phys_group_id" n)) p :=
    .var_nat (h.physical t ht) (fits p (by omega) (by omega))
  have hnumber : IsInt (s.scope ctx t) l.numGroups P :=
    ⟨_, h.numGroups t ht, toInt_ofNat_of_fits (fits P (by omega) (by omega))⟩
  have hleft : IsInt (s.scope ctx t) (required - .var (numbered "phys_group_id" n)) (M.toInt - p) :=
    IsInt.sub ⟨M, hrequired, rfl⟩ hphysical (fits _ (by omega) (by omega))
  have hsum := (hleft.add hnumber (fits _ (by omega) (by omega))).sub (.int 1)
    (show SegKernel.Fits (M.toInt - p + P - 1) from fits _ (by omega) (by omega))
  exact hsum.tdiv hnumber (by omega)

section Group
variable {required : Exp} {M : Int64} (hnd : active.Nodup) (hgroup : ctx.group = Int64.ofNat p) (hp : p < P)
  (hold : ∀ y ∈ required.occurrences ++ l.numGroups.occurrences, ¬New n y) (hfits : SegKernel.Fits (M.toInt.natAbs + P))
include hnd hgroup hp hold hfits

/-- A group finds its place, and the number of its rounds. -/
theorem beforeRounds_exec (hne : active ≠ []) (hsize : ∀ t ∈ active, t < s.threads.size)
    (hrequired : ∀ t ∈ active, required.eval (s.scope ctx t) = .ok (.i64 M))
    (hnumGroups : ∀ t ∈ active, l.numGroups.eval (s.scope ctx t) = .ok (.i64 (Int64.ofNat P))) :
    ∃ s', (∀ rest : List Stmt, execAll ctx (l.beforeRounds n required ++ rest) active s = execAll ctx rest active s') ∧
      l.Rotates n ctx active P p s' ∧ s'.stats.barriers = s.stats.barriers ∧ ∃ count : Int64,
        count.toInt.toNat = (M.toInt.toNat - p + P - 1) / P ∧
        ∀ t ∈ active, (Exp.var (numbered "iterations" (n + 1))).evalInt (s'.scope ctx t) = .ok count := by
  have holdGroups : ∀ y ∈ l.numGroups.occurrences, ¬New n y := fun y hy => hold y (List.mem_append_right _ hy)
  let s₁ := s.modifyAll active fun t th => th.bind (numbered "phys_group_id" n) (.i64 (answer ctx t .groupId))
  -- The place is asked for, and the number of rounds is computed from it.
  have hask : exec ctx (ask .groupId (numbered "phys_group_id" n)) active s = .ok () s₁ := exec_ask hnd
  have hkeeps : Keeps (.scalars (required.occurrences ++ l.numGroups.occurrences)) s s₁ :=
    (ask_quiet fun hmem => hold _ hmem (new_numbered (by decide) (Nat.le_refl n))).keeps hask
  have hplace : l.Rotates n ctx active P p s₁ := {
    size := fun t ht => by
      rw [GroupState.size_modifyAll]
      exact hsize t ht
    physical := fun t ht => by
      rw [GroupState.scope_eq, GroupState.thread_modifyAll ht (hsize t ht), ← hgroup]
      exact Thread.scope_bind_self ..
    numGroups := fun t ht => by rw [hkeeps.eval ctx fun y hy => List.mem_append_right _ hy, hnumGroups t ht] }
  have hrounds : ∀ t ∈ active, IsInt (s₁.scope ctx t) ((required - .var (numbered "phys_group_id" n)).divUp l.numGroups)
      ((M.toInt - p + P - 1).tdiv P) := fun t ht => by
    refine hplace.isInt_rounds hp hfits ht ?_
    rw [hkeeps.eval ctx fun y hy => List.mem_append_left _ hy, hrequired t ht]
  obtain ⟨count, hcount⟩ : ∃ count : Int64, count = Int64.ofInt ((M.toInt - p + P - 1).tdiv P) := ⟨_, rfl⟩
  let s₂ := s₁.modifyAll active fun _ th => th.bind (numbered "iterations" (n + 1)) (.i64 count)
  have hdeclare : exec ctx (.declareInit (numbered "iterations" (n + 1)) .i64
      ((required - .var (numbered "phys_group_id" n)).divUp l.numGroups)) active s₁ = .ok () s₂ := by
    have other : ∀ x : Exp, (∀ y ∈ x.occurrences, y ∈ required.occurrences ++ l.numGroups.occurrences) →
        x.Over (.except (numbered "iterations" (n + 1))) := by
      rintro x hx y hy rfl
      exact hold _ (hx _ hy) (new_numbered (by decide) (Nat.le_succ n))
    have hphysical : (Exp.var (numbered "phys_group_id" n)).Over (.except (numbered "iterations" (n + 1))) :=
      over_var.mpr fun e => Nat.ne_of_lt (Nat.lt_succ_self n) (numbered_inj.mp e).2
    refine exec_declareInit hnd hplace.size
      (over_divUp (over_sub (other _ fun y hy => List.mem_append_left _ hy) hphysical)
      (other _ fun y hy => List.mem_append_right _ hy)) (fun t ht => ?_) fun _ _ => rfl
    obtain ⟨a, ha, hai⟩ := hrounds t ht
    rw [ha, hcount, ← hai, Int64.ofInt_toInt]
  have hquiet : Quiet (l.rotation n) (.declareInit (numbered "iterations" (n + 1)) .i64
      ((required - .var (numbered "phys_group_id" n)).divUp l.numGroups)) :=
    .declareInit (not_rotation holdGroups (by decide) (Nat.lt_succ_self n))
  refine ⟨s₂, fun rest => ?_, hplace.keeps (hquiet.keeps hdeclare), rfl, count, ?_, fun t ht => ?_⟩
  · rw [beforeRounds, List.cons_append, List.cons_append, List.nil_append, execAll_of_ok hask, execAll_of_ok hdeclare]
  · obtain ⟨t, ht⟩ := List.exists_mem_of_ne_nil _ hne
    rw [hcount, toInt_ofInt_of_fits (hrounds t ht).fits, tdiv_rounds hp]
  · rw [evalInt, GroupState.scope_eq, GroupState.thread_modifyAll ht (hplace.size t ht),
      eval_var (Thread.scope_bind_self ..)]

/-- A group visits its logical groups one after another. -/
theorem coverGroups_exec (hne : active ≠ []) {coverage : Coverage} (hcoverage : coverage ≠ .direct)
    (hsize : ∀ t ∈ active, t < s.threads.size) (hrequired : ∀ t ∈ active, required.eval (s.scope ctx t) = .ok (.i64 M))
    (hnumGroups : ∀ t ∈ active, l.numGroups.eval (s.scope ctx t) = .ok (.i64 (Int64.ofNat P)))
    (hbody : Quiet (l.rotation n) body) (hlimit : (M.toInt.toNat + P - 1) / P ≤ ctx.loopLimit) :
    exec ctx (((l.coverGroups coverage required).run n).1.2.wrap body) active s =
      execAll ctx (l.beforeRounds n required ++ (visited M.toInt P p).flatMap (visit n P body)) active s := by
  obtain ⟨s', hbefore, hrotates, -, count, hcount, hbound⟩ :=
    beforeRounds_exec hnd hgroup hp hold hfits hne hsize hrequired hnumGroups
  have hlimit' : count.toInt.toNat ≤ ctx.loopLimit := by
    rw [hcount]
    exact Nat.le_trans (Nat.div_le_div_right (by omega)) hlimit
  have hrounds := rounds_eq hnd hne (fun y hy => hold y (List.mem_append_right _ hy))
    hbody hp count.toInt.toNat 0 s' hrotates
  rw [Nat.zero_mul, Nat.add_zero, hcount] at hrounds
  rw [coverGroups_eq hcoverage]
  dsimp only
  rw [Nest.wrap, exec_block, hbefore, hbefore, execAll_singleton, exec_loop_uniform hnd hne hbound hlimit', hcount]
  exact hrounds

end Group

/-- Each visit counts a barrier. -/
theorem visits_barriers (hne : active ≠ []) (hold : ∀ y ∈ l.numGroups.occurrences, ¬New n y)
    (hbody : Quiet (l.rotation n) body) :
    ∀ (groups : List Nat) (s : GroupState), execAll ctx (groups.flatMap (visit n P body)) active s = .ok () s' →
      s'.stats.barriers = s.stats.barriers + groups.length
  | [], s, h => by
    rw [List.flatMap_nil, execAll_nil] at h
    rw [(pure_eq_ok.mp h).2, List.length_nil, Nat.add_zero]
  | q :: groups, s, h => by
    rw [List.flatMap_cons, execAll_append] at h
    obtain ⟨_, s₁, h₁, h⟩ := bind_eq_ok.mp h
    rw [visits_barriers hne hold hbody groups s₁ h, (visit_ok hold hbody hne h₁).2, List.length_cons]
    omega

/-! ### A launch -/

open Device

/-- After quiet code at the start of a group, values are those of the launch. -/
theorem eval_after_entry {names : List Ident} {entry : Stmt} {order : List Nat} {start : Progress} {x : Exp}
    (hentry : Quiet (.scalars names) entry) (h : exec ctx entry order (groupStart ctx start) = .ok () s')
    (hx : ∀ y ∈ x.occurrences, y ∈ names) (t : Nat) : x.eval (s'.scope ctx t) = x.eval (ctx.captured[·]?) := by
  rw [(hentry.keeps h).eval ctx hx]
  refine eval_congr fun y _ => ?_
  rw [GroupState.scope_eq, GroupState.thread_of_replicate rfl]
  rfl

/-- Groups run one after another. -/
theorem runGroups_eq_forM {schedule : Schedule} {stmt : Stmt} {f : Nat → Device.Launch Unit} : ∀ {count first : Nat},
    (∀ p, p < first + count → runGroup { ctx with group := Int64.ofNat p } schedule stmt = f p) →
      runGroups ctx schedule stmt count first = (List.range' first count).forM f
  | 0, _, _ => rfl
  | count + 1, first, h => by
    rw [runGroups, h first (by omega), runGroups_eq_forM fun p hp => h p (by omega)]
    rfl

/-- If each group counts a barrier for each of its visits, so does the launch. -/
theorem forM_barriers {f : Nat → Device.Launch Unit} (visits : Nat → List Nat) :
    ∀ {groups : List Nat} {s s' : Progress},
    (∀ p ∈ groups, ∀ a b, f p a = .ok () b → b.stats.barriers = a.stats.barriers + (visits p).length) →
      groups.forM f s = .ok () s' → s'.stats.barriers = s.stats.barriers + (groups.flatMap visits).length
  | [], s, s', _, h => by
    rw [(pure_eq_ok.mp h).2]
    rfl
  | p :: groups, s, s', hf, h => by
    obtain ⟨_, s₁, h₁, h⟩ := bind_eq_ok.mp (show (f p >>= fun _ => groups.forM f) s = .ok () s' from h)
    rw [forM_barriers visits (fun q hq => hf q (List.mem_cons_of_mem p hq)) h, hf p List.mem_cons_self s s₁ h₁,
      List.flatMap_cons, List.length_append, Nat.add_assoc]

section Whole
variable {coverage : Coverage} {required : Exp} {entry : Stmt} {M : Int64} (schedule : Schedule)
  (hsize : 0 < ctx.groupSize.toInt) (hgroup : ctx.group = Int64.ofNat p) (hp : p < P)
  (hrequired : required.eval (ctx.captured[·]?) = .ok (.i64 M))
  (hnumGroups : l.numGroups.eval (ctx.captured[·]?) = .ok (.i64 (Int64.ofNat P)))
  (hold : ∀ y ∈ required.occurrences ++ l.numGroups.occurrences, ¬New n y)
  (hentry : Quiet (.scalars (required.occurrences ++ l.numGroups.occurrences)) entry)
  (hbody : Quiet (l.rotation n) body) (hfits : SegKernel.Fits (M.toInt.natAbs + P))
include hsize hgroup hp hrequired hnumGroups hold hentry hbody hfits

/-- What group `p` of a launch executes. -/
theorem runGroup_eq_visits (hcoverage : coverage ≠ .direct) (hlimit : (M.toInt.toNat + P - 1) / P ≤ ctx.loopLimit) :
    runGroup ctx schedule (.block [entry, ((l.coverGroups coverage required).run n).1.2.wrap body]) =
      runGroup ctx schedule (.block (entry :: l.beforeRounds n required ++
        (visited M.toInt P p).flatMap (visit n P body))) := by
  funext s
  rw [runGroup_eq, runGroup_eq, exec_block, exec_block, List.cons_append]
  congr 1
  cases hrun : exec ctx entry (schedule.order ctx.groupSize.toInt.toNat) (groupStart ctx s) with
  | error fault s' =>
    rw [execAll_of_error hrun, execAll_of_error hrun]
  | ok _ s' =>
    rw [execAll_of_ok hrun, execAll_of_ok hrun, execAll_singleton]
    refine coverGroups_exec (schedule.nodup_order _) hgroup hp hold hfits (schedule.order_ne_nil (by omega)) hcoverage
      (fun t ht => ?_) (fun t _ => ?_) (fun t _ => ?_) hbody hlimit
    · rw [(hentry.keeps hrun).size, groupStart, Array.size_replicate]
      exact (schedule.mem_order _ t).mp ht
    · rw [eval_after_entry hentry hrun fun y hy => List.mem_append_left _ hy, hrequired]
    · rw [eval_after_entry hentry hrun fun y hy => List.mem_append_right _ hy, hnumGroups]

/-- The barriers of a group are those after its visits. -/
theorem runGroup_barriers {a b : Progress}
    (h : runGroup ctx schedule (.block
      (entry :: l.beforeRounds n required ++ (visited M.toInt P p).flatMap (visit n P body))) a =
      .ok () b) : b.stats.barriers = a.stats.barriers + (visited M.toInt P p).length := by
  have hne := schedule.order_ne_nil (show 0 < ctx.groupSize.toInt.toNat by omega)
  rw [runGroup_eq, exec_block, List.cons_append] at h
  cases hrun : exec ctx entry (schedule.order ctx.groupSize.toInt.toNat) (groupStart ctx a) with
  | error fault s' =>
    rw [execAll_of_error hrun] at h
    cases h
  | ok _ s' =>
    obtain ⟨s₁, hbefore, -, hbarriers, -⟩ :=
      beforeRounds_exec (s := s') (schedule.nodup_order _) hgroup hp hold hfits hne
      (fun t ht => by
        rw [(hentry.keeps hrun).size, groupStart, Array.size_replicate]
        exact (schedule.mem_order _ t).mp ht)
      (fun t _ => by rw [eval_after_entry hentry hrun fun y hy => List.mem_append_left _ hy, hrequired])
      (fun t _ => by rw [eval_after_entry hentry hrun fun y hy => List.mem_append_right _ hy, hnumGroups])
    rw [execAll_of_ok hrun, hbefore] at h
    -- All but the visits, each with its barrier, is without barriers.
    cases hvisits : execAll ctx ((visited M.toInt P p).flatMap (visit n P body))
      (schedule.order ctx.groupSize.toInt.toNat) s₁ with
    | error fault s' =>
      rw [hvisits] at h
      cases h
    | ok _ s₂ =>
      rw [hvisits] at h
      cases h
      rw [show a.stats = (groupStart ctx a).stats from rfl, ← hentry.barriers hrun, ← hbarriers,
        ← visits_barriers hne (fun y hy => hold y (List.mem_append_right _ hy)) hbody _ s₁ hvisits]

end Whole

/-- A launch of `P` groups covers `M` logical groups, if the body has no barriers and leaves alone the number
    of the physical group and the number of groups. Physical group `p` executes the body for `p`, `p + P`,
    and so on, below `M`, in this order, which its variable tells the body. Each visit is followed by a
    barrier. Each logical group is visited once, and there are no other barriers. -/
theorem coverGroups_visits (l : Launch) (coverage : Coverage) (hcoverage : coverage ≠ .direct) (required : Exp)
    (entry body : Stmt) (ctx : GroupContext) (schedule : Schedule) {M : Int64} (hP : 0 < P)
    (hsize : 0 < ctx.groupSize.toInt) (hrequired : required.eval (ctx.captured[·]?) = .ok (.i64 M))
    (hnumGroups : l.numGroups.eval (ctx.captured[·]?) = .ok (.i64 (Int64.ofNat P)))
    (hold : ∀ y ∈ required.occurrences ++ l.numGroups.occurrences, ¬New n y)
    (hentry : Quiet (.scalars (required.occurrences ++ l.numGroups.occurrences)) entry)
    (hbody : Quiet (l.rotation n) body) (hfits : SegKernel.Fits (M.toInt.natAbs + P))
    (hlimit : (M.toInt.toNat + P - 1) / P ≤ ctx.loopLimit) :
    let (group, nest) := ((l.coverGroups coverage required).run n).1
    group = .var (numbered "virt_group_id" (n + 3)) ∧
    runGroups ctx schedule (.block [entry, nest.wrap body]) P 0 = ((List.range P).forM fun p =>
      runGroup { ctx with group := Int64.ofNat p } schedule
        (.block (entry :: l.beforeRounds n required ++ (visited M.toInt P p).flatMap (visit n P body)))) ∧
    (∀ p < P, visited M.toInt P p = (List.range M.toInt.toNat).filter fun q => q % P = p) ∧
    ((List.range P).flatMap (visited M.toInt P)).Perm (List.range M.toInt.toNat) ∧
    ∀ s s', runGroups ctx schedule (.block [entry, nest.wrap body]) P 0 s = .ok () s' →
      s'.stats.barriers = s.stats.barriers + M.toInt.toNat := by
  have hgroups : ∀ p < 0 + P, runGroup { ctx with group := Int64.ofNat p } schedule
      (.block [entry, ((l.coverGroups coverage required).run n).1.2.wrap body]) =
        runGroup { ctx with group := Int64.ofNat p } schedule
          (.block (entry :: l.beforeRounds n required ++ (visited M.toInt P p).flatMap (visit n P body))) := fun p hp =>
    runGroup_eq_visits schedule hsize rfl (by omega) hrequired hnumGroups hold hentry hbody hfits hcoverage hlimit
  have hlaunch := runGroups_eq_forM hgroups
  rw [← List.range_eq_range'] at hlaunch
  refine ⟨congrArg Prod.fst (coverGroups_eq hcoverage required), hlaunch, fun p hp => visited_eq_filter hp,
    flatMap_visited M.toInt P hP, fun s s' h => ?_⟩
  rw [hlaunch] at h
  rw [forM_barriers (visited M.toInt P) (fun p hp a b hab => ?_) h, (flatMap_visited M.toInt P hP).length_eq,
    List.length_range]
  refine runGroup_barriers schedule ?_ ?_ ?_ ?_ ?_ hold hentry hbody hfits hab
  exacts [hsize, rfl, List.mem_range.mp hp, hrequired, hnumGroups]

/-- A launch whose number of groups is a variable. -/
def turns : Launch where
  globalId := "gtid"
  localId := "ltid"
  groupId := "gid"
  waveWidth := "wave"
  numGroups := .var "groups"
  groupSize := .int 4
  numThreads := .var "groups" * .int 4

/-- Two groups of four threads, and five logical groups. -/
def turnsContext : GroupContext where
  captured := .ofList [("groups", .i64 2), ("required", .i64 5)]
  group := 0
  groupSize := 4
  numGroups := 2
  wave := 1
  loopLimit := 100
  checkRaces := true

/-- The threads of a group leave a mark for their logical group. -/
def mark : Stmt := .write ⟨"marks", .i64, .global, false⟩ (.var (numbered "virt_group_id" 3)) (.int 1)

theorem turns_visits :
    let code := Stmt.block [.skip, ((turns.coverGroups .virtualize (.var "required")).run 0).1.2.wrap mark]
    runGroups turnsContext .forward code 2 0 = ((List.range 2).forM fun p =>
      runGroup { turnsContext with group := Int64.ofNat p } .forward
        (.block (.skip :: turns.beforeRounds 0 (.var "required") ++ (visited 5 2 p).flatMap (visit 0 2 mark)))) ∧
    visited 5 2 0 = [0, 2, 4] ∧ visited 5 2 1 = [1, 3] ∧
    ∀ s s', runGroups turnsContext .forward code 2 0 s = .ok () s' → s'.stats.barriers = s.stats.barriers + 5 := by
  have hplain : ∀ y ∈ (Exp.var "required").occurrences ++ turns.numGroups.occurrences, '_' ∉ y.toList := by decide
  have hold : ∀ y ∈ (Exp.var "required").occurrences ++ turns.numGroups.occurrences, ¬New 0 y := fun y hy hnew =>
    not_generated (hplain y hy) hnew.generated
  obtain ⟨-, hlaunch, -, -, hbarriers⟩ := coverGroups_visits (n := 0) (P := 2) (M := 5) turns .virtualize (by decide)
    (.var "required") .skip mark turnsContext .forward (by decide) (by decide)
    (ok_of_toOption (by decide +kernel)) (ok_of_toOption (by decide +kernel)) hold .skip (.write nofun)
      ⟨by decide, by decide⟩
    (by decide)
  exact ⟨hlaunch, by decide, by decide, hbarriers⟩

/-- The threads take the number of the physical group for a variable of their own, and leave a mark. -/
def strayMark : Stmt := .block [.declareInit (numbered "phys_group_id" 0) .i64 (.int 5), mark]

/-- A single group for two logical groups. -/
def strayContext : GroupContext where
  captured := .ofList [("groups", .i64 1), ("required", .i64 2)]
  group := 0
  groupSize := 4
  numGroups := 1
  wave := 4
  loopLimit := 100
  checkRaces := false

/-- The body has no barriers, but the number that it leaves is the one from which the next logical group is computed.
    The group visits number 6, which there is not, and leaves out number 1. -/
theorem strayMark_leaves_out :
    let code := Stmt.block [.skip, ((turns.coverGroups .virtualize (.var "required")).run 0).1.2.wrap strayMark]
    let s : Progress := ⟨({} : Memory).insert "marks" (.zeroed .i64 8), {}⟩
    visited 2 1 0 = [0, 1] ∧ ∃ s', runGroups strayContext .forward code 1 0 s = .ok () s' ∧
      s'.global["marks"]?.map Buffer.values = some ([1, 0, 0, 0, 0, 0, 1, 0].map Value.i64) ∧
        s'.stats.barriers = 2 := by
  intro code s
  refine ⟨by decide, ?_⟩
  have hend : (reached? (runGroups strayContext .forward code 1 0 s)).map
      (fun s' => (s'.global["marks"]?.map Buffer.values, s'.stats.barriers)) =
        some (some ([1, 0, 0, 0, 0, 0, 1, 0].map Value.i64), 2) := by decide +kernel
  obtain ⟨s', hs', hend⟩ := Option.map_eq_some_iff.mp hend
  obtain ⟨hvalues, hbarriers⟩ := Prod.mk.inj hend
  exact ⟨s', eq_ok_of_reached? hs', hvalues, hbarriers⟩

end Launch
namespace Device

/-- Two logical groups, each of which computes a number under the given name and stores it. -/
def shifted (x : Ident) (numGroups : Int64) : Module where
  env := { arrays := ({} : Table _).insert "ys" (.i64, [.int 2]) }
  ops := [.seg [⟨"ys", .i64, [.int 2]⟩] {
    kind := .map
    grid := ⟨.group, .int numGroups, .int 1, .virtualize⟩
    space := ⟨"flat", [("g", .int 2)]⟩
    stms := [.compute x .i64 (.binary .add (.var "g") (.int 5))]
    results := [.returns (.var x)] }]

/-- The number takes the place of the group's own, from which the next logical group is computed, so a single group
    leaves out the second one. Two groups visit both. -/
theorem shifted_go_wrong :
    let d : Device := { wave := 1, global := ({} : Memory).insert "ys" (.ofValues .i64 [.i64 9, .i64 9]) }
    ∃ p q, (shifted "phys_group_id_4" 1).lower {} = .ok p ∧ (shifted "phys_group_id_4" 2).lower {} = .ok q ∧
      (d.run p).1.isOk = true ∧ (d.run p).2.global["ys"]?.map Buffer.values = some [.i64 5, .i64 9] ∧
      (d.run q).1.isOk = true ∧ (d.run q).2.global["ys"]?.map Buffer.values = some [.i64 5, .i64 6] := by
  intro d
  obtain ⟨p, hp, hone⟩ : ∃ p ∈ ((shifted "phys_group_id_4" 1).lower {}).toOption, (d.run p).1.isOk = true ∧
      (d.run p).2.global["ys"]?.map Buffer.values = some [.i64 5, .i64 9] := by decide +kernel
  obtain ⟨q, hq, htwo⟩ : ∃ q ∈ ((shifted "phys_group_id_4" 2).lower {}).toOption, (d.run q).1.isOk = true ∧
      (d.run q).2.global["ys"]?.map Buffer.values = some [.i64 5, .i64 6] := by decide +kernel
  exact ⟨p, q, ok_of_toOption hp, ok_of_toOption hq, hone.1, hone.2, htwo⟩

end Device
end SegKernel
