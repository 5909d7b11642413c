import Mathlib.Data.List.Perm.Basic
import Mathlib.Data.Multiset.Bind
import SegKernel.Proofs.Collectives.Areas
import SegKernel.Proofs.Collectives.Spans

/-! What a reduction computes, apart from its code. The points are shared out among threads; each thread combines
    what its points contribute, and what the threads have is combined in their order. As the operator is associative
    and starts from a neutral element, this is the combination of all points: in their order, if the shares follow
    one another, and in any case if the order does not matter. -/

namespace SegKernel

/-! ### Shares -/

/-- Whether a thread has points that lie next to each other, or as many points apart as there are threads. -/
inductive Sharing where
  | contiguous
  | strided

namespace Sharing

/-- The point of a thread at its turn `k`, of `p` turns. -/
def point (s : Sharing) (threads p t k : Nat) : Nat :=
  match s with
  | contiguous => t * p + k
  | strided => k * threads + t

/-- The points of a thread in its first `k` turns, of `p` turns; some turns of the last threads are past the end. -/
def upTo (s : Sharing) (threads p n t k : Nat) : List Nat := ((List.range k).map (s.point threads p t)).filter (· < n)

/-- The points of a thread. -/
def share (s : Sharing) (threads p n t : Nat) : List Nat := s.upTo threads p n t p

variable {s : Sharing} {threads p n t k : Nat}

theorem upTo_succ : s.upTo threads p n t (k + 1) =
    s.upTo threads p n t k ++ if s.point threads p t k < n then [s.point threads p t k] else [] := by
  unfold upTo
  rw [List.range_succ, List.map_append, List.filter_append]
  by_cases h : s.point threads p t k < n <;> simp [h]

/-- The positions of all threads are positions of one row. -/
theorem flatMap_range_mul {α : Type} (f : Nat → α) (a b : Nat) :
    ((List.range a).flatMap fun i => (List.range b).map fun j => f (i * b + j)) = (List.range (a * b)).map f := by
  induction a with
  | zero => simp
  | succ a ih =>
    rw [List.range_succ, List.flatMap_append, List.flatMap_singleton, ih, Nat.succ_mul, List.range_add, List.map_append,
      List.map_map]
    rfl

theorem filter_range (h : n ≤ k) : (List.range k).filter (· < n) = List.range n := by
  induction k with
  | zero =>
    obtain rfl : n = 0 := Nat.le_zero.mp h
    rfl
  | succ k ih =>
    rw [List.range_succ, List.filter_append]
    rcases Nat.eq_or_lt_of_le h with rfl | hlt
    · rw [List.filter_eq_self.mpr fun i hi => by simpa using Nat.lt_succ_of_lt (List.mem_range.mp hi)]
      simp [List.range_succ]
    · rw [ih (by omega)]
      simp
      omega

theorem flatMap_share (s : Sharing) (threads p n : Nat) : (List.range threads).flatMap (s.share threads p n) =
    ((List.range threads).flatMap fun t => (List.range p).map (s.point threads p t)).filter (· < n) := by
  rw [List.filter_flatMap]
  rfl

/-- The shares of all threads are the points, if there are turns enough. Shares that lie next to each other keep
    their order. -/
theorem flatMap_contiguous (h : n ≤ threads * p) :
    (List.range threads).flatMap (contiguous.share threads p n) = List.range n := by
  rw [flatMap_share, show ((List.range threads).flatMap fun t => (List.range p).map (contiguous.point threads p t)) =
    _ from
    flatMap_range_mul id threads p, List.map_id, filter_range h]

theorem perm_strided (h : n ≤ threads * p) :
    ((List.range threads).flatMap (strided.share threads p n)).Perm (List.range n) := by
  rw [flatMap_share]
  have swap : ((List.range threads).flatMap fun t => (List.range p).map fun k => k * threads + t).Perm
      ((List.range p).flatMap fun k => (List.range threads).map fun t => k * threads + t) := by
    have := Multiset.bind_map_comm (List.range threads : Multiset Nat) (List.range p) (f := fun t k => k * threads + t)
    simpa using this
  refine (swap.filter _).trans (List.Perm.of_eq ?_)
  rw [flatMap_range_mul (fun i => i) p threads, List.map_id', filter_range (Nat.mul_comm p threads ▸ h)]

end Sharing

/-! ### Totals -/

/-- An operator of a reduction, with what it computes and what the points contribute to it. -/
structure Total where
  combiner : Combiner
  op : combiner.lambda.Tuple → combiner.lambda.Tuple → combiner.lambda.Tuple
  unit : combiner.lambda.Tuple
  value : Nat → combiner.lambda.Tuple

namespace Total

/-- What some points contribute, combined from left to right. -/
def foldOver (T : Total) (points : List Nat) : T.combiner.lambda.Tuple := (points.map T.value).foldl T.op T.unit

/-- The same operator for other contributions. -/
def of (T : Total) (value : Nat → T.combiner.lambda.Tuple) : Total := { T with value }

/-- The lambda computes the operator, which is associative, and the neutral operands are its neutral element. -/
structure Lawful (T : Total) (σ : Scope) : Prop where
  computes : T.combiner.lambda.Computes σ T.op
  neutral : Exp.Values σ (T.combiner.neutral.map Operand.toExp) T.unit.1
  assoc : Std.Associative T.op
  identity : Std.LawfulIdentity T.op T.unit

variable {T : Total} {σ : Scope} {points points' : List Nat}

@[simp] theorem foldOver_nil : T.foldOver [] = T.unit := rfl

theorem foldOver_concat (i : Nat) : T.foldOver (points ++ [i]) = T.op (T.foldOver points) (T.value i) := by
  simp [foldOver]

theorem Lawful.mono {τ : Scope} (h : T.Lawful σ) (hle : σ.Le τ) : T.Lawful τ :=
  ⟨h.computes.mono hle, h.neutral.mono hle, h.assoc, h.identity⟩

theorem Lawful.of (h : T.Lawful σ) (value : Nat → T.combiner.lambda.Tuple) : (T.of value).Lawful σ :=
  ⟨h.computes, h.neutral, h.assoc, h.identity⟩

namespace Lawful

theorem foldOver_append (h : T.Lawful σ) :
    T.foldOver (points ++ points') = T.op (T.foldOver points) (T.foldOver points') := by
  have := h.assoc
  have := h.identity
  unfold foldOver
  rw [List.map_append, List.foldl_append]
  exact (congrArg (List.foldl T.op · _) (h.identity.right_id _).symm).trans List.foldl_assoc

/-- What threads have combined one after another is what all their points contribute. -/
theorem foldSpan_foldOver (h : T.Lawful σ) (share : Nat → List Nat) (last : Nat) :
    foldSpan T.op (fun t => T.foldOver (share t)) 0 last = T.foldOver ((List.range (last + 1)).flatMap share) := by
  induction last with
  | zero => rw [foldSpan_self, Nat.zero_add, List.range_one, List.flatMap_singleton]
  | succ last ih =>
    rw [foldSpan_succ (Nat.zero_le _), ih, List.range_succ (n := last + 1), List.flatMap_append, List.flatMap_singleton,
      h.foldOver_append]

/-- What groups have combined is combined like what points contribute. -/
theorem foldOver_flatMap (h : T.Lawful σ) (share : Nat → List Nat) (groups : List Nat) :
    (T.of fun g => T.foldOver (share g)).foldOver groups = T.foldOver (groups.flatMap share) := by
  induction groups using List.reverseRecOn with
  | nil => rfl
  | append_singleton groups g ih =>
    rw [foldOver_concat, List.flatMap_append, List.flatMap_singleton, h.foldOver_append, ← ih]
    rfl

/-- The order of the points does not matter if the operator is commutative. -/
theorem foldOver_perm (h : T.Lawful σ) (hcomm : Std.Commutative T.op) (hperm : points.Perm points') :
    T.foldOver points = T.foldOver points' := by
  have := h.assoc
  exact List.Perm.foldl_op_eq (hperm.map T.value)

theorem length_left (h : T.Lawful σ) : T.combiner.lambda.resultTypes.length = T.combiner.lambda.arity := by
  have values := h.computes T.unit T.unit
  have types := congrArg List.length (T.op T.unit T.unit).2
  rw [List.length_map] at types
  exact types.symm.trans values.length_eq.symm

theorem length_neutral (h : T.Lawful σ) : T.combiner.neutral.length = T.combiner.lambda.resultTypes.length := by
  have types := congrArg List.length T.unit.2
  rw [List.length_map] at types
  rw [← types, ← h.neutral.length_eq, List.length_map]

end Lawful
end Total

/-! ### Two stages -/

namespace Sharing

/-- The shares of the threads of all groups are those of all threads of a launch. -/
theorem flatMap_groups {α : Type} (f : Nat → List α) (P G : Nat) :
    ((List.range P).flatMap fun g => (List.range G).flatMap fun t => f (g * G + t)) =
    (List.range (P * G)).flatMap f := by
  have row := congrArg List.flatten (flatMap_range_mul f P G)
  rw [List.flatMap_def, List.flatten_flatten, List.map_map] at row
  rw [List.flatMap_def (f := f), ← row, List.flatMap_def]
  rfl

/-- The threads of groups combine their points, each group what its threads have, and at last one group what the groups
    have: this is what all points contribute. -/
theorem over_stages {T : Total} {σ : Scope} (hT : T.Lawful σ) (s : Sharing) {P G p q n : Nat}
    (hcomm : s = strided → Std.Commutative T.op) (hG : 0 < G) (hp : n ≤ P * G * p) (hq : P ≤ G * q) :
    let part := fun g => foldSpan T.op (fun t => T.foldOver (s.share (P * G) p n (g * G + t))) 0 (G - 1)
    foldSpan T.op (fun t => (T.of part).foldOver (contiguous.share G q P t)) 0 (G - 1) = T.foldOver (List.range n) := by
  intro part
  have parts : part = fun g => T.foldOver ((List.range G).flatMap fun t => s.share (P * G) p n (g * G + t)) := by
    funext g
    rw [show part g = _ from hT.foldSpan_foldOver _ _, Nat.sub_add_cancel hG]
  have last := (hT.of part).foldSpan_foldOver (contiguous.share G q P) (G - 1)
  rw [Nat.sub_add_cancel hG, flatMap_contiguous hq, parts] at last
  rw [parts]
  refine last.trans ((hT.foldOver_flatMap _ _).trans ?_)
  rw [flatMap_groups (s.share (P * G) p n)]
  cases s with
  | contiguous => rw [flatMap_contiguous hp]
  | strided => exact hT.foldOver_perm (hcomm rfl) (perm_strided hp)

end Sharing
end SegKernel
