import Mathlib.Data.List.Nodup
import Mathlib.Data.List.Pairwise
import Mathlib.Data.List.Perm.Basic
import SegKernel.Proofs.Execution.Phases
import SegKernel.Proofs.Maps.Visits

/-! How a grid of threads covers the points of a map. Each group visits one or more logical groups, in each
    of which its threads visit one point each. Every point has one thread that visits it, and its writes go
    to slots of its own. -/

namespace SegKernel
open Exp

/-! ### Logical groups -/

namespace Coverage

/-- How many logical groups physical group `g` visits, if there are `n` points and `P` groups of `G` threads.
    These are `g`, `g + P`, and so on. -/
def rounds (c : Coverage) (n P G g : Nat) : Nat :=
  match c with
  | direct => 1
  | virtualize | full => ((n + G - 1) / G - g + P - 1) / P

/-- 64 bits can hold the numbers of points and of groups, and the device admits as many rounds. -/
structure Bounded (n P G limit : Nat) : Prop where
  points : Fits ((n + G : Nat) : Int)
  groups : Fits (((n + G - 1) / G + P : Nat) : Int)
  rounds : ((n + G - 1) / G + P - 1) / P ≤ limit

/-- A grid of `P` groups of `G` threads suffices for `n` points. -/
def Suffices (c : Coverage) (n P G limit : Nat) : Prop :=
  match c with
  | direct => n ≤ P * G ∧ Fits ((P * G : Nat) : Int)
  | virtualize => Bounded n P G limit
  | full => G ∣ n ∧ Bounded n P G limit

variable {c : Coverage} {n P G limit g j q t : Nat}

theorem lt_rounds (hP : 0 < P) : j < ((n + G - 1) / G - g + P - 1) / P ↔ g + j * P < (n + G - 1) / G := by
  rw [← Nat.add_one_le_iff, Nat.le_div_iff_mul_le hP, Nat.succ_mul]
  omega

/-- The points of a logical group lie less than a group past the end. -/
theorem point_lt (hq : q < (n + G - 1) / G) (ht : t < G) : q * G + t < n + G := by
  have : (q + 1) * G ≤ n + G - 1 := Nat.le_trans (Nat.mul_le_mul_right G hq) (Nat.div_mul_le_self _ _)
  rw [Nat.succ_mul] at this
  omega

/-- In a full space there is a point for each thread of a logical group. -/
theorem point_lt_of_dvd (hG : 0 < G) (hn : G ∣ n) (hq : q < (n + G - 1) / G) (ht : t < G) : q * G + t < n := by
  obtain ⟨k, rfl⟩ := hn
  rw [show G * k + G - 1 = (G - 1) + G * k by omega, Nat.add_mul_div_left _ _ hG, Nat.div_eq_of_lt (by omega),
    Nat.zero_add] at hq
  have : (q + 1) * G ≤ k * G := Nat.mul_le_mul_right G hq
  rw [Nat.succ_mul, Nat.mul_comm k] at this
  omega

/-- Every point has a group, a round and a thread. -/
theorem Suffices.covers (h : c.Suffices n P G limit) (hP : 0 < P) (hG : 0 < G) {f : Nat} (hf : f < n) :
    ∃ g < P, ∃ j < c.rounds n P G g, ∃ t < G, (g + j * P) * G + t = f := by
  have ht : f % G < G := Nat.mod_lt f hG
  have hsplit : f / G * G + f % G = f := Nat.div_add_mod' f G
  have loops : ∃ g < P, ∃ j < ((n + G - 1) / G - g + P - 1) / P, ∃ t < G, (g + j * P) * G + t = f := by
    have hq : f / G % P + f / G / P * P = f / G := by
      rw [Nat.add_comm]
      exact Nat.div_add_mod' _ P
    refine ⟨f / G % P, Nat.mod_lt _ hP, f / G / P, (lt_rounds hP).mpr ?_, f % G, ht, by rw [hq, hsplit]⟩
    rw [hq, Nat.div_lt_iff_lt_mul hG]
    calc f < n := hf
      _ ≤ (n + G - 1) / G * G := by
        have := Nat.div_add_mod' (n + G - 1) G
        have := Nat.mod_lt (n + G - 1) hG
        omega
  cases c with
  | direct =>
    refine ⟨f / G, (Nat.div_lt_iff_lt_mul hG).mpr (Nat.lt_of_lt_of_le hf h.1), 0, Nat.one_pos, f % G, ht, ?_⟩
    rw [Nat.zero_mul, Nat.add_zero, hsplit]
  | virtualize => exact loops
  | full => exact loops

/-- The points of the threads of a group in its first `k` rounds, those past the end included. -/
def turns (P G g k : Nat) : List Nat :=
  (List.range k).flatMap fun j => (List.range G).map fun t => (g + j * P) * G + t

theorem turns_succ {k : Nat} :
    turns P G g (k + 1) = turns P G g k ++ (List.range G).map fun t => (g + k * P) * G + t := by
  rw [turns, List.range_succ, List.flatMap_append, List.flatMap_singleton, turns]

theorem mem_turns {k f : Nat} : f ∈ turns P G g k ↔ ∃ j < k, ∃ t < G, (g + j * P) * G + t = f := by
  simp only [turns, List.mem_flatMap, List.mem_map, List.mem_range]

/-- A point belongs to one logical group, and this one to one group of the launch. -/
theorem group_of_mem_turns {k f : Nat} (hg : g < P) (h : f ∈ turns P G g k) : f / G % P = g := by
  obtain ⟨j, -, t, ht, rfl⟩ := mem_turns.mp h
  rw [Nat.mul_comm, Nat.mul_add_div (Nat.zero_lt_of_lt ht), Nat.div_eq_of_lt ht, Nat.add_zero,
    Nat.add_mul_mod_self_right,
    Nat.mod_eq_of_lt hg]

theorem nodup_turns (hP : 0 < P) (k : Nat) : (turns P G g k).Nodup := by
  refine List.nodup_flatMap.mpr ⟨fun j _ => List.nodup_range.map fun t t' h => Nat.add_left_cancel h, ?_⟩
  refine List.pairwise_lt_range.imp fun {j j'} hlt => ?_
  intro f hf hf'
  obtain ⟨t, ht, rfl⟩ := List.mem_map.mp hf
  obtain ⟨t', -, h⟩ := List.mem_map.mp hf'
  -- The rounds of a group lie `P` groups of threads apart.
  have hstep : (g + j * P + 1) * G ≤ (g + j' * P) * G := by
    refine Nat.mul_le_mul_right G ?_
    have := Nat.mul_le_mul_right P hlt
    rw [Nat.succ_mul] at this
    omega
  rw [Nat.succ_mul] at hstep
  have := List.mem_range.mp ht
  omega

/-- Every point has its turn once in the launch. -/
theorem Suffices.perm_turns (h : c.Suffices n P G limit) (hP : 0 < P) (hG : 0 < G) :
    (((List.range P).flatMap fun g => turns P G g (c.rounds n P G g)).filter (· < n)).Perm (List.range n) := by
  have apart : ((List.range P).flatMap fun g => turns P G g (c.rounds n P G g)).Nodup := by
    refine List.nodup_flatMap.mpr ⟨fun g _ => nodup_turns hP _, List.nodup_range.imp_of_mem fun {g g'} hg hg' hne => ?_⟩
    intro f hf hf'
    exact hne ((group_of_mem_turns (List.mem_range.mp hg) hf).symm.trans
      (group_of_mem_turns (List.mem_range.mp hg') hf'))
  refine (List.perm_ext_iff_of_nodup (apart.filter _) List.nodup_range).mpr fun f => ?_
  rw [List.mem_filter, decide_eq_true_eq, List.mem_range, and_iff_right_iff_imp, List.mem_flatMap]
  intro hf
  obtain ⟨g, hg, j, hj, t, ht, hf⟩ := h.covers hP hG hf
  exact ⟨g, List.mem_range.mpr hg, mem_turns.mpr ⟨j, hj, t, ht, hf⟩⟩

/-- What is done at each point is done once, by the group whose turn it is. -/
theorem Suffices.perm_groups {α : Type} (h : c.Suffices n P G limit) (hP : 0 < P) (hG : 0 < G) {visit : Nat → List α}
    (hpast : ∀ f, n ≤ f → visit f = []) :
    ((List.range P).flatMap fun g => ((turns P G g (c.rounds n P G g)).flatMap visit).map (g, ·)).Perm
      ((List.range n).flatMap fun f => (visit f).map (f / G % P, ·)) := by
  let visitAt (f : Nat) : List (Nat × α) := (visit f).map (f / G % P, ·)
  have groups : ((List.range P).flatMap fun g => ((turns P G g (c.rounds n P G g)).flatMap visit).map (g, ·)) =
      ((List.range P).flatMap fun g => turns P G g (c.rounds n P G g)).flatMap visitAt := by
    rw [List.flatMap_assoc]
    refine List.flatMap_congr fun g hg => ?_
    rw [List.map_flatMap]
    refine List.flatMap_congr fun f hf => ?_
    rw [show visitAt f = (visit f).map (f / G % P, ·) from rfl, group_of_mem_turns (List.mem_range.mp hg) hf]
  -- Past the end nothing is done.
  have inside : ∀ l : List Nat, l.flatMap visitAt = (l.filter (· < n)).flatMap visitAt := by
    intro l
    induction l with
    | nil => rfl
    | cons f l ih =>
      by_cases hf : f < n
      · rw [List.filter_cons_of_pos (by simpa using hf), List.flatMap_cons, List.flatMap_cons, ih]
      · rw [List.filter_cons_of_neg (by simpa using hf), List.flatMap_cons, ih,
          show visitAt f = (visit f).map _ from rfl,
          hpast f (Nat.le_of_not_lt hf), List.map_nil, List.nil_append]
  rw [groups, inside]
  exact (h.perm_turns hP hG).flatMap_right visitAt

end Coverage

/-! ### The writes of a map -/

namespace Segmented
variable {op : SegOp} {H : Surroundings} {pattern : List PatElem} {ds : List Nat} {limit f f' : Nat} {ws : List Write}
  {w w' : Write}

/-- The map means some writes, which go to different slots, and memory has room for them. -/
structure Means (op : SegOp) (H : Surroundings) (pattern : List PatElem) (ds : List Nat) (limit : Nat)
    (ws : List Write) :
    Prop where
  fitting : op.Fitting H pattern ds limit
  fits : Fits (ds.prod : Nat)
  writes : op.writes H pattern ds = some ws
  apart : (ws.map (·.slot)).Nodup
  room : ∀ w ∈ ws, ∀ type shape, H.env.arrays[w.slot.array]? = some (type, shape) →
    (Store.ofGlobal H.memory).Reaches ⟨w.slot.array, type, .global, false⟩ w.slot.position

/-- The slots of the points that a thread may visit. -/
def Owns (op : SegOp) (H : Surroundings) (pattern : List PatElem) (ds : List Nat) (size t : Nat) (p : Slot) : Prop :=
  ∃ f, f % size = t ∧ ∃ w ∈ op.visit H pattern ds f, w.slot = p

theorem storesAt_of_mem_visit (h : w ∈ op.visit H pattern ds f) :
    f < ds.prod ∧ ∃ ws, op.storesAt H pattern ds f = some ws ∧ w ∈ ws := by
  unfold visit at h
  split at h
  · rename_i hf
    cases hws : op.storesAt H pattern ds f with
    | none =>
      rw [hws] at h
      cases h
    | some ws =>
      rw [hws] at h
      exact ⟨hf, ws, rfl, h⟩
  · cases h

/-- Past the end nothing is written. -/
theorem visit_of_le (h : ds.prod ≤ f) : op.visit H pattern ds f = [] := by
  rw [visit, if_neg (Nat.not_lt.mpr h)]

/-- A write goes to the destination of a result, which the host declares. -/
theorem result_of_mem_visit (h : w ∈ op.visit H pattern ds f) : ∃ r ∈ pattern.zip op.results, r.1.name ∈ H.env.arrays ∧
    w.slot.space = .global ∧ w.slot.array = r.1.name := by
  obtain ⟨-, ws, hws, hw⟩ := storesAt_of_mem_visit h
  simp only [storesAt, Option.bind_eq_bind, Option.bind_eq_some_iff, Option.pure_def, Option.some.injEq] at hws
  obtain ⟨ρ, -, written, hwritten, rfl⟩ := hws
  obtain ⟨out, hout, hw⟩ := List.mem_flatten.mp hw
  obtain ⟨r, hr, hrout⟩ := exists_of_mem_mapM hwritten hout
  simp only [BodyResult.storesOn, Option.bind_eq_bind, Option.bind_eq_some_iff] at hrout
  obtain ⟨⟨type, shape⟩, hknown, hrout⟩ := hrout
  exact ⟨r, hr, Std.ExtTreeMap.mem_iff_isSome_getElem?.mpr (Option.isSome_iff_exists.mpr ⟨_, hknown⟩),
    BodyResult.slot_of_storesTo hrout w hw⟩

/-- All writes go to the destinations. -/
theorem slot_of_mem_visit (h : w ∈ op.visit H pattern ds f) :
    w.slot.space = .global ∧ w.slot.array ∈ pattern.map (·.name) := by
  obtain ⟨r, hr, -, hspace, harray⟩ := result_of_mem_visit h
  exact ⟨hspace, harray ▸ List.mem_map_of_mem (List.of_mem_zip hr).1⟩

/-- The map stores some values. No slot is stored to twice, and memory has room for all of them. -/
structure Stores (op : SegOp) (H : Surroundings) (pattern : List PatElem) (ds : List Nat) (limit : Nat)
    (ws : List Write) :
    Prop where
  housed : op.Housed H pattern ds limit
  fits : Fits (ds.prod : Nat)
  stored : ∀ f < ds.prod, (op.storesAt H pattern ds f).isSome
  writes_eq : ws = (List.range ds.prod).flatMap (op.visit H pattern ds)
  apart : ∀ {f f' : Nat} {w w' : Write}, w ∈ op.visit H pattern ds f → w' ∈ op.visit H pattern ds f' →
    w.slot = w'.slot →
    f = f' ∧ w = w'
  room : ∀ w ∈ ws, ∀ type shape, H.env.arrays[w.slot.array]? = some (type, shape) →
    (Store.ofGlobal H.memory).Reaches ⟨w.slot.array, type, .global, false⟩ w.slot.position

namespace Stores

theorem mem_iff (h : op.Stores H pattern ds limit ws) : w ∈ ws ↔ ∃ f, w ∈ op.visit H pattern ds f := by
  rw [h.writes_eq, List.mem_flatMap]
  exact ⟨fun ⟨f, _, hw⟩ => ⟨f, hw⟩, fun ⟨f, hw⟩ => ⟨f, List.mem_range.mpr (storesAt_of_mem_visit hw).1, hw⟩⟩

theorem eq_of_slot (h : op.Stores H pattern ds limit ws) (hw : w ∈ ws) (hw' : w' ∈ ws) (hslot : w.slot = w'.slot) :
    w = w' := by
  obtain ⟨f, hf⟩ := h.mem_iff.mp hw
  obtain ⟨f', hf'⟩ := h.mem_iff.mp hw'
  exact (h.apart hf hf' hslot).2

theorem oneWave (h : op.Stores H pattern ds limit ws) (ctx : GroupContext) (size : Nat) :
    OneWave ctx size (op.Owns H pattern ds size) := by
  rintro t t' p - - ⟨f, rfl, w, hw, rfl⟩ ⟨f', rfl, w', hw', hslot⟩
  rw [(h.apart hw hw' hslot.symm).1]

end Stores

namespace Means

theorem stored (h : op.Means H pattern ds limit ws) : ∀ f < ds.prod, (op.storesAt H pattern ds f).isSome := by
  intro f hf
  obtain ⟨wss, hwss, -⟩ := Option.map_eq_some_iff.mp h.writes
  obtain ⟨ws, -, hws⟩ := mem_of_mapM hwss (List.mem_range.mpr hf)
  exact Option.isSome_iff_exists.mpr ⟨ws, storesAt_of_writesAt hws⟩

/-- The writes are those of the points in their order. -/
theorem writes_eq (h : op.Means H pattern ds limit ws) : ws = (List.range ds.prod).flatMap (op.visit H pattern ds) := by
  obtain ⟨wss, hwss, rfl⟩ := Option.map_eq_some_iff.mp h.writes
  rw [List.flatMap_def]
  congr 1
  have visits : List.Forall₂ (fun f out => op.visit H pattern ds f = out) (List.range ds.prod) wss := by
    refine ((List.forall₂_and_left _ _).mpr ⟨fun f hf => List.mem_range.mp hf, mapM_eq_some.mp hwss⟩).imp ?_
    rintro f out ⟨hf, hout⟩
    rw [visit, if_pos hf, storesAt_of_writesAt hout, Option.getD_some]
  exact (List.forall₂_eq_eq_eq ▸ List.forall₂_map_left_iff.mpr visits : _ = _).symm

/-- A slot is written at one point. -/
theorem point_unique (h : op.Means H pattern ds limit ws) (hw : w ∈ op.visit H pattern ds f)
    (hw' : w' ∈ op.visit H pattern ds f') (hslot : w.slot = w'.slot) : f = f' := by
  have hapart := h.apart
  rw [h.writes_eq, List.map_flatMap, List.nodup_flatMap] at hapart
  by_contra hne
  have hf := List.mem_range.mpr (storesAt_of_mem_visit hw).1
  have hf' := List.mem_range.mpr (storesAt_of_mem_visit hw').1
  have : Std.Symm (Function.onFun List.Disjoint fun f => (op.visit H pattern ds f).map (·.slot)) :=
    ⟨fun _ _ hd => List.disjoint_symm hd⟩
  have hdisjoint := hapart.2.forall hf hf' hne
  exact hdisjoint (List.mem_map_of_mem hw) (hslot ▸ List.mem_map_of_mem hw')

theorem stores (h : op.Means H pattern ds limit ws) : op.Stores H pattern ds limit ws where
  housed := h.fitting.housed
  fits := h.fits
  stored := h.stored
  writes_eq := h.writes_eq
  apart hw hw' hslot := by
    have mem : ∀ {f w}, w ∈ op.visit H pattern ds f → w ∈ ws := fun hw => by
      rw [h.writes_eq]
      exact List.mem_flatMap.mpr ⟨_, List.mem_range.mpr (storesAt_of_mem_visit hw).1, hw⟩
    exact ⟨h.point_unique hw hw' hslot, List.inj_on_of_nodup_map h.apart (mem hw) (mem hw') hslot⟩
  room := h.room

end Means
end Segmented
end SegKernel
