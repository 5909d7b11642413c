import Mathlib.Tactic.ByContra
import SegKernel.Proofs.Schedules.Logs

/-! What the log of accesses says about the past of a group. It keeps the last write of an element and
    its readers in one epoch only; as long as no two accesses have raced, that is enough to tell whether
    the next one races. -/

namespace SegKernel

/-- A plain access of a thread to an element that waves share. -/
structure Touch where
  thread : Nat
  location : Location
  isWrite : Bool
deriving DecidableEq

/-- What a group does as far as races are concerned. -/
inductive Event
  | touch (touch : Touch)
  | barrier
deriving DecidableEq

/-- The accesses of a group that has executed some barriers before, each with the number of barriers that
    come before it. -/
def stampedFrom : Nat → List Event → List (Nat × Touch)
  | _, [] => []
  | n, .barrier :: events => stampedFrom (n + 1) events
  | n, .touch a :: events => (n, a) :: stampedFrom n events

/-- The accesses of a group, each with the number of barriers that come before it. -/
def stamped (events : List Event) : List (Nat × Touch) := stampedFrom 0 events

/-- Two accesses to an element, of which at least one is a write, race if threads of different waves make
    them with equally many barriers before. -/
def Races (wave : Nat → Int64) (events : List Event) : Prop :=
  ∃ p ∈ stamped events, ∃ q ∈ stamped events, p.1 = q.1 ∧ p.2.location = q.2.location ∧
    wave p.2.thread ≠ wave q.2.thread ∧ (p.2.isWrite = true ∨ q.2.isWrite = true)

instance (wave : Nat → Int64) (events : List Event) : Decidable (Races wave events) :=
  inferInstanceAs (Decidable (∃ p ∈ stamped events, ∃ q ∈ stamped events, _))

/-! ### Stamps -/

theorem stampedFrom_append (n : Nat) (es es' : List Event) :
    stampedFrom n (es ++ es') = stampedFrom n es ++ stampedFrom (n + es.count .barrier) es' := by
  induction es generalizing n with
  | nil => simp [stampedFrom]
  | cons e es ih =>
    cases e with
    | barrier =>
      rw [List.cons_append, stampedFrom, stampedFrom, ih, List.count_cons_self]
      congr 2
      omega
    | touch a => rw [List.cons_append, stampedFrom, stampedFrom, ih, List.cons_append, List.count_cons_of_ne (by simp)]

theorem stamped_touch (es : List Event) (a : Touch) :
    stamped (es ++ [.touch a]) = stamped es ++ [(es.count .barrier, a)] := by
  rw [stamped, stampedFrom_append, Nat.zero_add]
  rfl

theorem stamped_barrier (es : List Event) : stamped (es ++ [.barrier]) = stamped es := by
  rw [stamped, stampedFrom_append]
  exact List.append_nil _

theorem stampedFrom_le {p : Nat × Touch} {es : List Event} {n : Nat} (h : p ∈ stampedFrom n es) :
    p.1 ≤ n + es.count .barrier := by
  induction es generalizing n with
  | nil => cases h
  | cons e es ih =>
    cases e with
    | barrier =>
      rw [stampedFrom] at h
      rw [List.count_cons_self]
      have := ih h
      omega
    | touch a =>
      rw [stampedFrom] at h
      rw [List.count_cons_of_ne (by simp)]
      rcases List.mem_cons.mp h with rfl | h
      · exact Nat.le_add_right _ _
      · exact ih h

/-- No access comes after more barriers than there are. -/
theorem stamped_le {p : Nat × Touch} {es : List Event} (h : p ∈ stamped es) : p.1 ≤ es.count .barrier := by
  have := stampedFrom_le h
  omega

namespace Races
variable {wave : Nat → Int64} {es es' : List Event} {a : Touch}

theorem not_nil : ¬Races wave [] := by
  rintro ⟨p, hp, -⟩
  cases hp

/-- Accesses that race do so whatever comes later. -/
theorem append (h : Races wave es) (es' : List Event) : Races wave (es ++ es') := by
  obtain ⟨p, hp, q, hq, hrace⟩ := h
  have mem : ∀ {r}, r ∈ stamped es → r ∈ stamped (es ++ es') := fun hr => by
    rw [stamped, stampedFrom_append]
    exact List.mem_append_left _ hr
  exact ⟨p, mem hp, q, mem hq, hrace⟩

theorem barrier_iff : Races wave (es ++ [.barrier]) ↔ Races wave es := by
  unfold Races
  rw [stamped_barrier]

/-- An access of this epoch with which the next access races. -/
def With (wave : Nat → Int64) (es : List Event) (a : Touch) : Prop :=
  ∃ b, (es.count .barrier, b) ∈ stamped es ∧ b.location = a.location ∧ wave b.thread ≠ wave a.thread ∧
    (b.isWrite = true ∨ a.isWrite = true)

/-- The next access adds no races but its own. -/
theorem touch_iff : Races wave (es ++ [.touch a]) ↔ Races wave es ∨ With wave es a := by
  constructor
  · rintro ⟨p, hp, q, hq, hepoch, hl, hw, hwrite⟩
    rw [stamped_touch, List.mem_append, List.mem_singleton] at hp hq
    rcases hp with hp | rfl <;> rcases hq with hq | rfl
    · exact Or.inl ⟨p, hp, q, hq, hepoch, hl, hw, hwrite⟩
    · obtain ⟨n, b⟩ := p
      obtain rfl : n = es.count .barrier := hepoch
      exact Or.inr ⟨b, hp, hl, hw, hwrite⟩
    · obtain ⟨n, b⟩ := q
      obtain rfl : es.count .barrier = n := hepoch
      exact Or.inr ⟨b, hq, hl.symm, hw.symm, hwrite.symm⟩
    · exact absurd rfl hw
  · rintro (h | ⟨b, hb, hl, hw, hwrite⟩)
    · exact h.append _
    · refine ⟨(es.count .barrier, b), ?_, (es.count .barrier, a), ?_, rfl, hl, hw, hwrite⟩
      · rw [stamped_touch]
        exact List.mem_append_left _ hb
      · rw [stamped_touch]
        exact List.mem_append_right _ List.mem_cons_self

end Races

/-! ### Logs -/

/-- A wave has accessed an element with so many barriers before. -/
def Touched (wave : Nat → Int64) (es : List Event) (epoch : Nat) (l : Location) (isWrite : Bool) (w : Int64) : Prop :=
  ∃ t, wave t = w ∧ (epoch, ⟨t, l, isWrite⟩) ∈ stamped es

theorem touched_touch {wave : Nat → Int64} {es : List Event} {a : Touch} {n : Nat} {l : Location} {isWrite : Bool}
    {w : Int64} : Touched wave (es ++ [.touch a]) n l isWrite w ↔ Touched wave es n l isWrite w ∨
      (n = es.count .barrier ∧ l = a.location ∧ isWrite = a.isWrite ∧ w = wave a.thread) := by
  unfold Touched
  simp only [stamped_touch, List.mem_append, List.mem_singleton, Prod.mk.injEq]
  constructor
  · rintro ⟨t, rfl, h | ⟨rfl, rfl⟩⟩
    · exact Or.inl ⟨t, rfl, h⟩
    · exact Or.inr ⟨rfl, rfl, rfl, rfl⟩
  · rintro (⟨t, rfl, h⟩ | ⟨rfl, rfl, rfl, rfl⟩)
    · exact ⟨t, rfl, Or.inl h⟩
    · exact ⟨a.thread, rfl, Or.inr ⟨rfl, rfl⟩⟩

theorem Races.with_iff {wave : Nat → Int64} {es : List Event} {a : Touch} : With wave es a ↔
    ∃ w, w ≠ wave a.thread ∧ (Touched wave es (es.count .barrier) a.location true w ∨
      (a.isWrite = true ∧ Touched wave es (es.count .barrier) a.location false w)) := by
  constructor
  · rintro ⟨⟨t, l, isWrite⟩, hb, rfl, hw, hwrite⟩
    refine ⟨wave t, hw, ?_⟩
    cases isWrite with
    | true => exact Or.inl ⟨t, rfl, hb⟩
    | false => exact Or.inr ⟨hwrite.resolve_left Bool.false_ne_true, t, rfl, hb⟩
  · rintro ⟨w, hw, ⟨t, rfl, ht⟩ | ⟨hwrite, t, rfl, ht⟩⟩
    · exact ⟨_, ht, rfl, hw, Or.inl rfl⟩
    · exact ⟨_, ht, rfl, hw, Or.inr hwrite⟩

namespace RaceLog

/-- The log tells what has happened since the last barrier of a past without races. -/
structure Describes (wave : Nat → Int64) (es : List Event) (m : RaceLog) : Prop where
  clean : ¬Races wave es
  epoch : m.epoch = es.count .barrier
  lastWrite : ∀ l e w, (m.cells.getD l {}).lastWrite = some (e, w) → e ≤ m.epoch
  readEpoch : ∀ l, (m.cells.getD l {}).readEpoch ≤ m.epoch
  writer : ∀ l w, (m.cells.getD l {}).lastWrite = some (m.epoch, w) ↔ Touched wave es m.epoch l true w
  reader : ∀ l w, w ∈ (m.cells.getD l {}).current m.epoch ↔ Touched wave es m.epoch l false w

namespace Describes
variable {wave : Nat → Int64} {es : List Event} {m : RaceLog}

theorem start : Describes wave [] {} where
  clean := Races.not_nil
  epoch := rfl
  lastWrite l e w h := by simp at h
  readEpoch l := by simp
  writer l w := by simp [Touched, stamped, stampedFrom]
  reader l w := by simp [Touched, stamped, stampedFrom, Accesses.current]

/-- After a barrier nothing has been accessed. -/
theorem barrier (h : Describes wave es m) : Describes wave (es ++ [.barrier]) m.nextEpoch where
  clean := fun hraces => h.clean (Races.barrier_iff.mp hraces)
  epoch := by
    rw [List.count_append]
    exact congrArg (· + 1) h.epoch
  lastWrite l e w he := Nat.le_succ_of_le (h.lastWrite l e w he)
  readEpoch l := Nat.le_succ_of_le (h.readEpoch l)
  writer l w := by
    constructor
    · exact fun he => absurd (h.lastWrite l _ w he) (Nat.not_succ_le_self _)
    · rintro ⟨t, -, ht⟩
      rw [stamped_barrier] at ht
      exact absurd (stamped_le ht) (h.epoch ▸ Nat.not_succ_le_self _)
  reader l w := by
    constructor
    · intro hw
      unfold Accesses.current at hw
      split at hw
      · rename_i he
        exact absurd (he ▸ h.readEpoch l) (Nat.not_succ_le_self _)
      · cases hw
    · rintro ⟨t, -, ht⟩
      rw [stamped_barrier] at ht
      exact absurd (stamped_le ht) (h.epoch ▸ Nat.not_succ_le_self _)

variable {a : Touch}

theorem otherWriter? (h : Describes wave es m) {l : Location} {w : Int64} :
    (m.cells.getD l {}).otherWriter? m.epoch w = none ↔ ∀ v, Touched wave es m.epoch l true v → v = w := by
  rw [Accesses.otherWriter?_eq_none]
  constructor
  · exact fun hnone v hv => hnone _ v ((h.writer l v).mpr hv) rfl
  · rintro hall e v hv rfl
    exact hall v ((h.writer l v).mp hv)

theorem otherReader? (h : Describes wave es m) {l : Location} {w : Int64} :
    (m.cells.getD l {}).otherReader? m.epoch w = none ↔ ∀ v, Touched wave es m.epoch l false v → v = w := by
  rw [Accesses.otherReader?_eq_none]
  simp only [← h.reader]
  unfold Accesses.current
  constructor
  · intro hall v hv
    split at hv
    · exact hall ‹_› v hv
    · cases hv
  · intro hall he r hr
    exact hall r (by rwa [if_pos he])

/-- Where the next access races, it cannot be recorded. -/
theorem record_error (h : Describes wave es m) (ha : Races.With wave es a) :
    ∃ other, m.record a.location (wave a.thread) a.isWrite = .error other := by
  obtain ⟨w, hw, hother⟩ := Races.with_iff.mp ha
  rw [← h.epoch] at hother
  cases hrecord : m.record a.location (wave a.thread) a.isWrite with
  | error other => exact ⟨other, rfl⟩
  | ok m' =>
    exfalso
    obtain ⟨b, hb, -⟩ := record_eq_ok.mp hrecord
    unfold access at hb
    split at hb
    · obtain ⟨hwriter, hreader, -⟩ := Accesses.write_eq_ok.mp hb
      rcases hother with hother | ⟨-, hother⟩
      · exact hw (h.otherWriter?.mp hwriter w hother)
      · exact hw (h.otherReader?.mp hreader w hother)
    · rename_i hread
      exact hw (h.otherWriter?.mp (Accesses.read_eq_ok.mp hb).1 w (hother.resolve_right fun hwrite => hread hwrite.1))

/-- The log after an access that does not race: its element has the new accesses. -/
theorem setCell (h : Describes wave es m) (ha : ¬Races.With wave es a) {b : Accesses}
    (hlastWrite : ∀ e w, b.lastWrite = some (e, w) → e ≤ m.epoch) (hreadEpoch : b.readEpoch ≤ m.epoch)
    (hwriter : ∀ w, b.lastWrite = some (m.epoch, w) ↔
      Touched wave es m.epoch a.location true w ∨ (a.isWrite = true ∧ w = wave a.thread))
    (hreader : ∀ w, w ∈ b.current m.epoch ↔
      Touched wave es m.epoch a.location false w ∨ (a.isWrite = false ∧ w = wave a.thread)) :
    Describes wave (es ++ [.touch a]) (m.setCell a.location b) where
  clean hraces := (Races.touch_iff.mp hraces).elim h.clean ha
  epoch := by
    rw [List.count_append, List.count_singleton]
    exact h.epoch
  lastWrite l e w := by
    rw [getD_setCell]
    split
    · exact hlastWrite e w
    · exact h.lastWrite l e w
  readEpoch l := by
    rw [getD_setCell]
    split
    · exact hreadEpoch
    · exact h.readEpoch l
  writer l w := by
    show ((m.setCell a.location b).cells.getD l {}).lastWrite = some (m.epoch, w) ↔ Touched wave _ m.epoch l true w
    rw [getD_setCell, touched_touch, ← h.epoch]
    split
    · rename_i hl
      rw [hwriter w, hl, eq_comm (a := a.isWrite)]
      simp
    · rename_i hl
      rw [h.writer l w]
      simp [Ne.symm hl]
  reader l w := by
    show w ∈ ((m.setCell a.location b).cells.getD l {}).current m.epoch ↔ Touched wave _ m.epoch l false w
    rw [getD_setCell, touched_touch, ← h.epoch]
    split
    · rename_i hl
      rw [hreader w, hl, eq_comm (a := a.isWrite)]
      simp
    · rename_i hl
      rw [h.reader l w]
      simp [Ne.symm hl]

/-- Where the next access does not race, the log takes it up. -/
theorem record_ok (h : Describes wave es m) (ha : ¬Races.With wave es a) :
    ∃ m', m.record a.location (wave a.thread) a.isWrite = .ok m' ∧ Describes wave (es ++ [.touch a]) m' := by
  -- In this epoch only the thread's own wave has touched the element in a way that matters to the access.
  have apart : ∀ w, w ≠ wave a.thread → ¬(Touched wave es m.epoch a.location true w ∨
      (a.isWrite = true ∧ Touched wave es m.epoch a.location false w)) :=
    fun w hw hother => ha (Races.with_iff.mpr ⟨w, hw, h.epoch ▸ hother⟩)
  have written : (m.cells.getD a.location {}).otherWriter? m.epoch (wave a.thread) = none :=
    h.otherWriter?.mpr fun w hw => by_contra fun hne => apart w hne (Or.inl hw)
  cases hwrite : a.isWrite with
  | true =>
    have read : (m.cells.getD a.location {}).otherReader? m.epoch (wave a.thread) = none :=
      h.otherReader?.mpr fun w hw => by_contra fun hne => apart w hne (Or.inr ⟨hwrite, hw⟩)
    refine ⟨_, record_eq_ok.mpr ⟨_, Accesses.write_eq_ok.mpr ⟨written, read, rfl⟩, rfl⟩, h.setCell ha ?_ ?_ ?_ ?_⟩
    · intro e w he
      cases he
      exact Nat.le_refl _
    · exact h.readEpoch a.location
    · intro w
      simp only [Option.some.injEq, Prod.mk.injEq, true_and]
      constructor
      · exact fun hw => Or.inr ⟨hwrite, hw.symm⟩
      · rintro (hw | ⟨-, rfl⟩)
        · exact ((h.otherWriter?.mp written) w hw).symm
        · rfl
    · intro w
      rw [hwrite]
      exact (h.reader a.location w).trans (by simp)
  | false =>
    refine ⟨_, record_eq_ok.mpr ⟨_, Accesses.read_eq_ok.mpr ⟨written, rfl⟩, rfl⟩, h.setCell ha ?_ ?_ ?_ ?_⟩
    · exact h.lastWrite a.location
    · exact Nat.le_refl _
    · intro w
      rw [hwrite]
      exact (h.writer a.location w).trans (by simp)
    · intro w
      rw [Accesses.current_withReader, Accesses.mem_withReader, h.reader a.location w, hwrite]
      simp

end Describes
end RaceLog
end SegKernel
