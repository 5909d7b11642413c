import SegKernel.Proofs.Evaluation.Faults
import SegKernel.Proofs.Execution.Questions
import SegKernel.Proofs.Execution.Steps
import SegKernel.Proofs.Schedules.Logs

/-! Rights of access. Between two barriers each thread has the right to read some elements and to write
    some. The rights of different waves do not conflict, so threads that keep to their rights do not
    race. -/

namespace SegKernel

/-- What is past does not matter, and what was done in this epoch was done by waves that may. -/
structure Accesses.Within (a : Accesses) (epoch : Nat) (writer reader : Int64 → Prop) : Prop where
  lastWrite : ∀ e w, a.lastWrite = some (e, w) → e ≤ epoch ∧ (e = epoch → writer w)
  readEpoch : a.readEpoch ≤ epoch
  readers : a.readEpoch = epoch → ∀ w ∈ a.readers, reader w

namespace Accesses.Within
variable {a : Accesses} {epoch : Nat} {writer reader writer' reader' : Int64 → Prop} {w : Int64}

theorem imp (h : a.Within epoch writer reader) (hw : ∀ w, writer w → writer' w) (hr : ∀ w, reader w → reader' w) :
    a.Within epoch writer' reader' where
  lastWrite e w he := ⟨(h.lastWrite e w he).1, fun hn => hw w ((h.lastWrite e w he).2 hn)⟩
  readEpoch := h.readEpoch
  readers he w hmem := hr w (h.readers he w hmem)

/-- A new epoch starts without accesses. -/
theorem next (h : a.Within epoch writer reader) : a.Within (epoch + 1) writer' reader' where
  lastWrite e w he := by
    have := (h.lastWrite e w he).1
    exact ⟨by omega, fun hn => by omega⟩
  readEpoch := Nat.le_succ_of_le h.readEpoch
  readers he := by
    have := h.readEpoch
    omega

theorem otherWriter? (h : a.Within epoch writer reader) (hw : ∀ v, writer v → v = w) : a.otherWriter? epoch w = none :=
  otherWriter?_eq_none.mpr fun e v he hn => hw v ((h.lastWrite e v he).2 hn)

theorem read (h : a.Within epoch writer reader) (hw : ∀ v, writer v → v = w) (hr : reader w) :
    ∃ b, a.read epoch w = .ok b ∧ b.Within epoch writer reader := by
  refine ⟨_, read_eq_ok.mpr ⟨h.otherWriter? hw, rfl⟩, h.lastWrite, Nat.le_refl _, fun _ v hv => ?_⟩
  rcases (mem_withReader a v).mp hv with hv | rfl
  · unfold current at hv
    split at hv
    · exact h.readers ‹_› v hv
    · cases hv
  · exact hr

theorem write (h : a.Within epoch writer reader) (hw : ∀ v, writer v → v = w) (hr : ∀ v, reader v → v = w)
    (hwriter : writer w) : ∃ b, a.write epoch w = .ok b ∧ b.Within epoch writer reader := by
  have alone : a.otherReader? epoch w = none := otherReader?_eq_none.mpr fun he r hmem => hr r (h.readers he r hmem)
  refine ⟨_, write_eq_ok.mpr ⟨h.otherWriter? hw, alone, rfl⟩, fun e v he => ?_, h.readEpoch, h.readers⟩
  cases he
  exact ⟨Nat.le_refl _, fun _ => hwriter⟩

end Accesses.Within

/-- The threads of a group, and the elements of which the accesses are watched. -/
structure Watch where
  ctx : GroupContext
  size : Nat
  watched : Location → Prop

namespace Watch

/-- Who may read a watched element, or write it. -/
structure Rights (W : Watch) where
  may : Nat → Location → Bool → Prop
  watched : ∀ {t l isWrite}, may t l isWrite → W.watched l
  apart : ∀ {t t' l isWrite}, t < W.size → t' < W.size → may t l true → may t' l isWrite →
    Run.waveOf W.ctx t' = Run.waveOf W.ctx t

/-- The wave of a thread with the right. -/
def Rights.Wave {W : Watch} (R : W.Rights) (l : Location) (isWrite : Bool) (w : Int64) : Prop :=
  ∃ t < W.size, Run.waveOf W.ctx t = w ∧ R.may t l isWrite

/-- No one has a right. -/
def noRights (W : Watch) : W.Rights := ⟨fun _ _ _ => False, False.elim, fun _ _ h => h.elim⟩

/-- The accesses of this epoch were within the rights. -/
def Respected {W : Watch} (R : W.Rights) (log : RaceLog) : Prop :=
  ∀ l, W.watched l → (log.cells.getD l {}).Within log.epoch (R.Wave l true) (R.Wave l false)

variable {W : Watch} {R R' : W.Rights} {log : RaceLog} {t : Nat} {l : Location} {isWrite : Bool}

theorem Respected.imp (h : W.Respected R log) (hR : ∀ t l isWrite, R.may t l isWrite → R'.may t l isWrite) :
    W.Respected R' log := by
  intro l hl
  refine (h l hl).imp ?_ ?_
  · rintro w ⟨t, ht, hw, hmay⟩
    exact ⟨t, ht, hw, hR _ _ _ hmay⟩
  · rintro w ⟨t, ht, hw, hmay⟩
    exact ⟨t, ht, hw, hR _ _ _ hmay⟩

/-- No access is of a later epoch. -/
def Sound (W : Watch) (log : RaceLog) : Prop :=
  ∀ l, W.watched l → (log.cells.getD l {}).Within log.epoch (fun _ => True) fun _ => True

theorem Respected.sound (h : W.Respected R log) : W.Sound log := fun l hl =>
  (h l hl).imp (fun _ _ => trivial) fun _ _ => trivial

theorem Sound.nextEpoch (h : W.Sound log) : W.Respected R log.nextEpoch := fun l hl => (h l hl).next

/-- An access within the rights is no race. -/
theorem Respected.record (h : W.Respected R log) (ht : t < W.size) (hmay : R.may t l isWrite) :
    ∃ log', log.record l (Run.waveOf W.ctx t) isWrite = .ok log' ∧ W.Respected R log' := by
  have within := h l (R.watched hmay)
  have own : ∀ b, R.may t l b → R.Wave l b (Run.waveOf W.ctx t) := fun b hb => ⟨t, ht, rfl, hb⟩
  have recorded : ∃ a, RaceLog.access (log.cells.getD l {}) log.epoch (Run.waveOf W.ctx t) isWrite = .ok a ∧
      a.Within log.epoch (R.Wave l true) (R.Wave l false) := by
    cases isWrite with
    | true =>
      refine within.write ?_ ?_ (own _ hmay)
      · rintro v ⟨t', ht', rfl, hmay'⟩
        exact R.apart ht ht' hmay hmay'
      · rintro v ⟨t', ht', rfl, hmay'⟩
        exact R.apart ht ht' hmay hmay'
    | false =>
      refine within.read ?_ (own _ hmay)
      rintro v ⟨t', ht', rfl, hmay'⟩
      exact (R.apart ht' ht hmay' hmay).symm
  obtain ⟨a, ha, hwithin⟩ := recorded
  refine ⟨_, RaceLog.record_eq_ok.mpr ⟨a, ha, rfl⟩, fun k hk => ?_⟩
  rw [RaceLog.getD_setCell]
  split
  · subst l
    exact hwithin
  · exact h k hk

end Watch

/-! ## Faults that are no races

Faults that are no data races. Only the record of an access reports a race: what an expression means and
where an element lies is found out without one. -/

/-- The device has found two waves that access one element. -/
def Fault.IsRace (fault : Fault) : Prop := ∃ array index first second, fault = .dataRace array index first second

/-- If there is a fault, it is no data race. -/
def Peaceful {α : Type} (r : Except Fault α) : Prop := ∀ fault, r = .error fault → ¬fault.IsRace

theorem Fault.not_isRace {fault : Fault} (h : ∀ array index first second, fault ≠ .dataRace array index first second) :
    ¬fault.IsRace := fun ⟨array, index, first, second, e⟩ => h array index first second e

namespace Peaceful
variable {α β : Type} {r : Except Fault α}

theorem ok (a : α) : Peaceful (.ok a : Except Fault α) := by
  intro fault h
  cases h

theorem error {fault : Fault} (h : ¬fault.IsRace) : Peaceful (.error fault : Except Fault α) := by
  intro fault' h'
  cases h'
  exact h

theorem typeMismatch (cause : Mismatch) : Peaceful (.error (.typeMismatch cause) : Except Fault α) :=
  error (Fault.not_isRace (by simp))

theorem unknownVariable (name : Ident) : Peaceful (.error (.unknownVariable name) : Except Fault α) :=
  error (Fault.not_isRace (by simp))

theorem unknownArray (name : Ident) : Peaceful (.error (.unknownArray name) : Except Fault α) :=
  error (Fault.not_isRace (by simp))

theorem outOfBounds (array : Ident) (index : Int64) (length : Nat) :
    Peaceful (.error (.outOfBounds array index length) : Except Fault α) :=
  error (Fault.not_isRace (by simp))

theorem map (h : Peaceful r) (f : α → β) : Peaceful (r.map f) := by
  cases r with
  | ok a => exact ok (f a)
  | error fault => exact error (h fault rfl)

theorem bind {f : α → Except Fault β} (h : Peaceful r) (hf : ∀ a, Peaceful (f a)) : Peaceful (r >>= f) := by
  cases r with
  | ok a => exact hf a
  | error fault => exact error (h fault rfl)

end Peaceful

/-! ### Expressions -/

theorem Value.peaceful_binary (op : BinaryOp) (x y : Value) : Peaceful (binary op x y) := by
  intro fault h
  cases binary_faults op x y fault h with
  | typeMismatch cause => exact Fault.not_isRace (by simp)
  | divisionByZero => exact Fault.not_isRace (by simp)

namespace Exp
variable {σ : Scope} {x : Exp}

theorem Fails.not_isRace {fault : Fault} (h : x.Fails σ fault) : ¬fault.IsRace := by
  rcases h with h | ⟨-, -⟩
  · cases h with
    | typeMismatch cause => exact Fault.not_isRace (by simp)
    | divisionByZero => exact Fault.not_isRace (by simp)
  · exact Fault.not_isRace (by simp)

variable (σ x)

theorem peaceful_eval : Peaceful (x.eval σ) := (eval_faults σ x).imp fun _ => Fails.not_isRace

theorem peaceful_evalInt : Peaceful (x.evalInt σ) := (evalInt_faults σ x).imp fun _ => Fails.not_isRace

theorem peaceful_evalBool : Peaceful (x.evalBool σ) := (evalBool_faults σ x).imp fun _ => Fails.not_isRace

end Exp

/-! ### Memory -/

open Peaceful

theorem Buffer.peaceful_position (b : Buffer) (view : View) (index : Int64) : Peaceful (b.position view index) := by
  unfold position
  split
  · exact typeMismatch _
  · split
    · exact ok _
    · exact outOfBounds _ _ _

theorem peaceful_arrayLength (name : Ident) (length : Int64) : Peaceful (arrayLength name length) := by
  unfold arrayLength
  split
  · exact outOfBounds _ _ _
  · exact ok _

namespace Run
variable (s : GroupState) (t : Nat)

theorem peaceful_element (view : View) (index : Int64) : Peaceful (element s t view index) := by
  unfold element
  split
  · exact (Buffer.peaceful_position _ view index).map _
  · exact unknownArray _

theorem peaceful_storable (view : View) (index : Int64) (v : Value) : Peaceful (storable s t view index v) := by
  unfold storable
  split
  · exact typeMismatch _
  · split
    · exact Buffer.peaceful_position _ view index
    · exact unknownArray _

theorem peaceful_assignable (name : Ident) (v : Value) : Peaceful (assignable s t name v) := by
  unfold assignable
  split
  · split
    · exact ok _
    · exact typeMismatch _
  · exact unknownVariable _

end Run

/-! ### Computations -/

namespace Run
variable {α β : Type}

/-- The computation ends in a state with `P`, or with a fault that is no data race. -/
def Ends (r : Run α) (P : α → GroupState → Prop) (s : GroupState) : Prop :=
  (∀ a s', r s = .ok a s' → P a s') ∧ ∀ fault s', r s = .error fault s' → ¬fault.IsRace

namespace Ends
variable {r : Run α} {q : α → Run β} {P Q : α → GroupState → Prop} {R : β → GroupState → Prop} {s : GroupState}

theorem of_ok {a : α} {s' : GroupState} (hr : r s = .ok a s') (h : P a s') : Ends r P s := by
  unfold Ends
  rw [hr]
  refine ⟨fun b s'' hb => ?_, fun fault s'' hf => by cases hf⟩
  cases hb
  exact h

theorem pure {a : α} (h : P a s) : Ends (pure a) P s := of_ok rfl h

theorem bind (h : Ends r P s) (hq : ∀ a s', P a s' → Ends (q a) R s') : Ends (r >>= q) R s := by
  constructor
  · intro b s'' hb
    obtain ⟨a, s', ha, hb⟩ := bind_eq_ok.mp hb
    exact (hq a s' (h.1 a s' ha)).1 b s'' hb
  · intro fault s'' hf
    rw [bind_apply] at hf
    cases hr : r s with
    | ok a s' =>
      rw [hr] at hf
      exact (hq a s' (h.1 a s' hr)).2 fault s'' hf
    | error fault' s' =>
      rw [hr] at hf
      cases hf
      exact h.2 fault s'' hr

theorem imp (h : Ends r P s) (hPQ : ∀ a s', P a s' → Q a s') : Ends r Q s :=
  ⟨fun a s' ha => hPQ a s' (h.1 a s' ha), h.2⟩

theorem evaluate {f : GroupState → Except Fault α} (hf : Peaceful (f s)) (h : ∀ a, f s = .ok a → P a s) :
    Ends (evaluate f) P s := by
  constructor
  · intro a s' ha
    obtain ⟨ha, rfl⟩ := evaluate_eq_ok.mp ha
    exact h a ha
  · intro fault s' hfault
    unfold Run.evaluate at hfault
    split at hfault
    · cases hfault
    · cases hfault
      exact hf fault ‹_›

theorem modify {f : GroupState → GroupState} {P : Unit → GroupState → Prop} (h : P () (f s)) : Ends (modify f) P s :=
  of_ok rfl h

theorem throw {fault : Fault} (h : ¬fault.IsRace) : Ends (throw fault : Run α) P s := by
  refine ⟨fun a s' ha => (throw_ne_ok.mp ha).elim, fun fault' s' hf => ?_⟩
  cases hf
  exact h

/-- Threads are asked what can be answered without a race. -/
theorem ask [Inhabited α] {g : Nat → GroupState → Except Fault α} {P : List (Nat × α) → GroupState → Prop}
    {active : List Nat} (hg : ∀ t, Peaceful (g t s))
    (h : ∀ a : Nat → α, (∀ t ∈ active, g t s = .ok (a t)) → P (active.map fun t => (t, a t)) s) :
    Ends (Run.ask active fun t => Run.evaluate (g t)) P s := by
  let a : Nat → α := fun t => (g t s).toOption.getD default
  have answers : ∀ active : List Nat, Ends (Run.ask active fun t => Run.evaluate (g t))
      (fun l s' => s' = s ∧ (∀ t ∈ active, g t s = .ok (a t)) ∧ l = active.map fun t => (t, a t)) s := by
    intro active
    induction active with
    | nil => exact Ends.pure ⟨rfl, by simp, rfl⟩
    | cons t ts ih =>
      unfold Run.ask at *
      rw [List.mapM_cons]
      refine bind (P := fun p s' => s' = s ∧ g t s = .ok (a t) ∧ p = (t, a t)) ?_ ?_
      · refine bind (P := fun b s' => s' = s ∧ g t s = .ok b) (Ends.evaluate (hg t) fun b hb => ⟨rfl, hb⟩) ?_
        rintro b s' ⟨rfl, hb⟩
        have hab : a t = b := by simp [a, hb, Except.toOption]
        exact Ends.pure ⟨rfl, hab ▸ hb, by rw [hab]⟩
      · rintro p s' ⟨rfl, ht, rfl⟩
        refine bind ih ?_
        rintro l s' ⟨rfl, hts, rfl⟩
        refine Ends.pure ⟨rfl, fun t' ht' => ?_, rfl⟩
        rcases List.mem_cons.mp ht' with rfl | ht'
        · exact ht
        · exact hts t' ht'
  refine (answers active).imp ?_
  rintro l s' ⟨rfl, ha, rfl⟩
  exact h a ha

end Ends
end Run
end SegKernel
