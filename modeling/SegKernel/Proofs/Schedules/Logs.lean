import SegKernel.Device.Race

/-! The log of accesses keeps the readers of an element in the order of their reads. Logs that differ in
    nothing else give the same verdicts, and two waves can be recorded in either order. -/

namespace SegKernel

/-- The same accesses, up to the order of the readers. -/
structure Accesses.Alike (a b : Accesses) : Prop where
  lastWrite : a.lastWrite = b.lastWrite
  readEpoch : a.readEpoch = b.readEpoch
  readers : ∀ w, w ∈ a.readers ↔ w ∈ b.readers

namespace Accesses
variable {a b c : Accesses} {epoch : Nat} {w w' : Int64}

theorem Alike.refl (a : Accesses) : Alike a a := ⟨rfl, rfl, fun _ => Iff.rfl⟩

theorem Alike.trans (h : Alike a b) (h' : Alike b c) : Alike a c :=
  ⟨h.lastWrite.trans h'.lastWrite, h.readEpoch.trans h'.readEpoch, fun w => (h.readers w).trans (h'.readers w)⟩

theorem otherWriter?_eq_none :
    a.otherWriter? epoch w = none ↔ ∀ e v, a.lastWrite = some (e, v) → e = epoch → v = w := by
  unfold otherWriter?
  cases a.lastWrite with
  | none => simp
  | some p =>
    obtain ⟨e, v⟩ := p
    simp

theorem otherReader?_eq_none : a.otherReader? epoch w = none ↔ (a.readEpoch = epoch → ∀ r ∈ a.readers, r = w) := by
  unfold otherReader?
  by_cases h : a.readEpoch = epoch
  · simp [h]
  · simp [h]

/-- The readers of the present epoch. -/
def current (a : Accesses) (epoch : Nat) : List Int64 := if a.readEpoch = epoch then a.readers else []

/-- The accesses with one more reader. -/
def withReader (a : Accesses) (epoch : Nat) (w : Int64) : Accesses :=
  { a with
    readEpoch := epoch
    readers := if (a.current epoch).contains w then a.current epoch else a.current epoch ++ [w] }

theorem read_eq_ok : a.read epoch w = .ok b ↔ a.otherWriter? epoch w = none ∧ b = a.withReader epoch w := by
  unfold read
  cases h : a.otherWriter? epoch w with
  | some v => simp
  | none =>
    simp only [Except.ok.injEq, true_and]
    exact eq_comm

theorem write_eq_ok : a.write epoch w = .ok b ↔
    a.otherWriter? epoch w = none ∧ a.otherReader? epoch w = none ∧ b = { a with lastWrite := some (epoch, w) } := by
  unfold write
  cases h : a.otherWriter? epoch w with
  | some v => simp
  | none =>
    cases h' : a.otherReader? epoch w with
    | some r => simp
    | none => simp [eq_comm]

theorem mem_withReader (a : Accesses) (v : Int64) :
    v ∈ (a.withReader epoch w).readers ↔ v ∈ a.current epoch ∨ v = w := by
  unfold withReader
  dsimp only
  split
  · rename_i hmem
    have hmem : w ∈ a.current epoch := by simpa using hmem
    constructor
    · exact Or.inl
    · rintro (hv | rfl)
      · exact hv
      · exact hmem
  · simp

theorem current_withReader (a : Accesses) : (a.withReader epoch w).current epoch = (a.withReader epoch w).readers :=
  if_pos rfl

theorem Alike.mem_current (h : Alike a b) (v : Int64) : v ∈ a.current epoch ↔ v ∈ b.current epoch := by
  unfold current
  rw [h.readEpoch]
  split
  · exact h.readers v
  · exact Iff.rfl

theorem Alike.otherWriter? (h : Alike a b) : a.otherWriter? epoch w = b.otherWriter? epoch w := by
  unfold Accesses.otherWriter?
  rw [h.lastWrite]

theorem Alike.otherReader? (h : Alike a b) (ha : a.otherReader? epoch w = none) : b.otherReader? epoch w = none := by
  rw [otherReader?_eq_none] at *
  intro he r hr
  exact ha (h.readEpoch.trans he) r ((h.readers r).mpr hr)

theorem Alike.withReader (h : Alike a b) : Alike (a.withReader epoch w) (b.withReader epoch w) := by
  refine ⟨h.lastWrite, rfl, fun v => ?_⟩
  rw [mem_withReader, mem_withReader, h.mem_current]

/-- A wave that can read can read whatever the order of the readers before it. -/
theorem Alike.read {a' : Accesses} (h : Alike a b) (ha : a.read epoch w = .ok a') :
    ∃ b', b.read epoch w = .ok b' ∧ Alike a' b' := by
  obtain ⟨hw, rfl⟩ := read_eq_ok.mp ha
  exact ⟨_, read_eq_ok.mpr ⟨h.otherWriter? ▸ hw, rfl⟩, h.withReader⟩

theorem Alike.write {a' : Accesses} (h : Alike a b) (ha : a.write epoch w = .ok a') :
    ∃ b', b.write epoch w = .ok b' ∧ Alike a' b' := by
  obtain ⟨hw, hr, rfl⟩ := write_eq_ok.mp ha
  exact ⟨_, write_eq_ok.mpr ⟨h.otherWriter? ▸ hw, h.otherReader? hr, rfl⟩, ⟨rfl, h.readEpoch, h.readers⟩⟩

/-- Two waves read an element in either order. -/
theorem read_swap {a₁ a₂ : Accesses} (h₁ : a.read epoch w = .ok a₁) (h₂ : a₁.read epoch w' = .ok a₂) :
    ∃ b₁ b₂, a.read epoch w' = .ok b₁ ∧ b₁.read epoch w = .ok b₂ ∧ Alike a₂ b₂ := by
  obtain ⟨hw, rfl⟩ := read_eq_ok.mp h₁
  obtain ⟨hw', rfl⟩ := read_eq_ok.mp h₂
  refine ⟨_, _, read_eq_ok.mpr ⟨hw', rfl⟩, read_eq_ok.mpr ⟨hw, rfl⟩, rfl, rfl, fun v => ?_⟩
  simp only [mem_withReader, current_withReader]
  constructor
  · rintro ((h | h) | h)
    · exact Or.inl (Or.inl h)
    · exact Or.inr h
    · exact Or.inl (Or.inr h)
  · rintro ((h | h) | h)
    · exact Or.inl (Or.inl h)
    · exact Or.inr h
    · exact Or.inl (Or.inr h)

/-- Two waves do not write an element in one epoch. -/
theorem write_alone {a₁ a₂ : Accesses} (h₁ : a.write epoch w = .ok a₁) (h₂ : a₁.write epoch w' = .ok a₂) : w = w' := by
  obtain ⟨-, -, rfl⟩ := write_eq_ok.mp h₁
  obtain ⟨hw, -, -⟩ := write_eq_ok.mp h₂
  exact otherWriter?_eq_none.mp hw epoch w rfl rfl

end Accesses

namespace RaceLog

/-- The same epoch and the same accesses of each element, up to the order of its readers. -/
structure Alike (m n : RaceLog) : Prop where
  epoch : m.epoch = n.epoch
  cells : ∀ l, (m.cells.getD l {}).Alike (n.cells.getD l {})

variable {m n o m' : RaceLog} {l l' : Location} {w w' : Int64} {isWrite : Bool}

theorem Alike.refl (m : RaceLog) : Alike m m := ⟨rfl, fun _ => .refl _⟩

theorem Alike.trans (h : Alike m n) (h' : Alike n o) : Alike m o :=
  ⟨h.epoch.trans h'.epoch, fun l => (h.cells l).trans (h'.cells l)⟩

theorem Alike.nextEpoch (h : Alike m n) : Alike m.nextEpoch n.nextEpoch := ⟨congrArg (· + 1) h.epoch, h.cells⟩

/-- Records an access of one element. -/
def access (a : Accesses) (epoch : Nat) (w : Int64) (isWrite : Bool) : Except Int64 Accesses :=
  if isWrite then a.write epoch w else a.read epoch w

/-- The log in which the accesses of an element are replaced. -/
def setCell (m : RaceLog) (l : Location) (a : Accesses) : RaceLog := { m with cells := m.cells.insert l a }

theorem record_eq_ok : m.record l w isWrite = .ok m' ↔
    ∃ a, access (m.cells.getD l {}) m.epoch w isWrite = .ok a ∧ m' = m.setCell l a := by
  unfold record access
  cases h : (if isWrite = true then (m.cells.getD l {}).write m.epoch w else (m.cells.getD l {}).read m.epoch w) with
  | error e => simp [h, Except.map]
  | ok a => simp [h, Except.map, setCell, eq_comm]

theorem getD_setCell (m : RaceLog) (l : Location) (a : Accesses) (k : Location) :
    (m.setCell l a).cells.getD k {} = if l = k then a else m.cells.getD k {} := by
  unfold setCell
  dsimp only
  rw [Std.ExtTreeMap.getD_insert]
  by_cases h : l = k
  · rw [if_pos h, if_pos (Std.LawfulEqCmp.compare_eq_iff_eq.mpr h)]
  · rw [if_neg h, if_neg fun e => h (Std.LawfulEqCmp.compare_eq_iff_eq.mp e)]

theorem access_alike {a b a' : Accesses} {epoch : Nat} (h : a.Alike b) (ha : access a epoch w isWrite = .ok a') :
    ∃ b', access b epoch w isWrite = .ok b' ∧ a'.Alike b' := by
  unfold access at *
  cases isWrite with
  | true => exact h.write ha
  | false => exact h.read ha

/-- Alike logs let the same accesses pass. -/
theorem Alike.record (h : Alike m n) (hm : m.record l w isWrite = .ok m') :
    ∃ n', n.record l w isWrite = .ok n' ∧ Alike m' n' := by
  obtain ⟨a, ha, rfl⟩ := record_eq_ok.mp hm
  obtain ⟨b, hb, hab⟩ := access_alike (h.cells l) ha
  refine ⟨_, record_eq_ok.mpr ⟨b, h.epoch ▸ hb, rfl⟩, h.epoch, fun k => ?_⟩
  rw [getD_setCell, getD_setCell]
  split
  · exact hab
  · exact h.cells k

/-- Two waves that write in one epoch write different elements. -/
theorem record_write_ne {m₁ m₂ : RaceLog} (hw : w ≠ w') (h₁ : m.record l w true = .ok m₁)
    (h₂ : m₁.record l' w' true = .ok m₂) : l ≠ l' := by
  rintro rfl
  obtain ⟨a, ha, rfl⟩ := record_eq_ok.mp h₁
  obtain ⟨b, hb, -⟩ := record_eq_ok.mp h₂
  rw [getD_setCell, if_pos rfl] at hb
  exact hw (Accesses.write_alone ha hb)

/-- Two waves can be recorded in either order. -/
theorem record_swap {m₁ m₂ : RaceLog} (hw : w ≠ w') (h₁ : m.record l w isWrite = .ok m₁)
    (h₂ : m₁.record l' w' isWrite = .ok m₂) :
    ∃ n₁ n₂, m.record l' w' isWrite = .ok n₁ ∧ n₁.record l w isWrite = .ok n₂ ∧ Alike m₂ n₂ := by
  obtain ⟨a, ha, rfl⟩ := record_eq_ok.mp h₁
  obtain ⟨b, hb, rfl⟩ := record_eq_ok.mp h₂
  rw [getD_setCell] at hb
  -- At one place two waves can both read; a write is alone there. At two places nothing is shared.
  by_cases hl : l = l'
  · subst hl
    rw [if_pos rfl] at hb
    cases isWrite with
    | true => exact absurd (Accesses.write_alone ha hb) hw
    | false =>
      obtain ⟨b₁, b₂, hb₁, hb₂, halike⟩ := Accesses.read_swap ha hb
      have second : access ((m.setCell l b₁).cells.getD l {}) m.epoch w false = .ok b₂ := by
        rw [getD_setCell, if_pos rfl]
        exact hb₂
      refine ⟨_, _, record_eq_ok.mpr ⟨b₁, hb₁, rfl⟩, record_eq_ok.mpr ⟨b₂, second, rfl⟩, rfl, fun k => ?_⟩
      simp only [getD_setCell]
      split
      · exact halike
      · exact .refl _
  · rw [if_neg hl] at hb
    have second : access ((m.setCell l' b).cells.getD l {}) m.epoch w isWrite = .ok a := by
      rw [getD_setCell, if_neg (Ne.symm hl)]
      exact ha
    refine ⟨_, _, record_eq_ok.mpr ⟨b, hb, rfl⟩, record_eq_ok.mpr ⟨a, second, rfl⟩, rfl, fun k => ?_⟩
    simp only [getD_setCell]
    by_cases hk : l' = k
    · rw [if_pos hk, if_neg fun e => hl (e.trans hk.symm), if_pos hk]
      exact .refl _
    · rw [if_neg hk, if_neg hk]
      exact .refl _

end RaceLog
end SegKernel
