import Std.Data.ExtTreeMap
import SegKernel.Kernel.Basic

/-! Detection of data races within a group. Barriers divide a run into epochs. Two waves race when
    both touch one element in one epoch and at least one of them writes it. -/

namespace SegKernel

/-- An element of an array that waves share. -/
structure Location where
  space : Space
  array : Ident
  index : Int64
deriving DecidableEq

namespace Location

/-- The elements by array, then by index, then by space. -/
def order : Location → Location → Ordering :=
  compareLex (compareOn array) (compareLex (compareOn index) (compareOn (·.space.ctorIdx)))

instance : Std.TransCmp order := inferInstanceAs (Std.TransCmp (compareLex _ (compareLex _ _)))

instance : Std.LawfulEqCmp order where
  compare_self := by simp [order, compareLex, compareOn]
  eq_of_compare := by
    rintro ⟨s, a, i⟩ ⟨s', a', i'⟩ h
    simp only [order, compareLex, Ordering.then_eq_eq, compareOn, Std.LawfulEqOrd.compare_eq_iff_eq] at h
    obtain ⟨rfl, rfl, h⟩ := h
    cases s <;> cases s' <;> simp_all [Space.ctorIdx]

end Location

/-- The last write of an element, and the waves that read it in the last epoch in which it was read,
    in the order of their reads. -/
structure Accesses where
  lastWrite : Option (Nat × Int64) := none
  readEpoch : Nat := 0
  readers : List Int64 := []

namespace Accesses

/-- The other wave that wrote the element in this epoch. -/
def otherWriter? (a : Accesses) (epoch : Nat) (wave : Int64) : Option Int64 :=
  match a.lastWrite with
  | some (e, w) => if e = epoch ∧ w ≠ wave then some w else none
  | none => none

/-- The first other wave that read the element in this epoch. -/
def otherReader? (a : Accesses) (epoch : Nat) (wave : Int64) : Option Int64 :=
  if a.readEpoch = epoch then a.readers.find? (· != wave) else none

/-- Records a read; fails with the wave it races with. -/
def read (a : Accesses) (epoch : Nat) (wave : Int64) : Except Int64 Accesses :=
  match a.otherWriter? epoch wave with
  | some w => .error w
  | none =>
    let readers := if a.readEpoch = epoch then a.readers else []
    .ok { a with
      readEpoch := epoch
      readers := if readers.contains wave then readers else readers ++ [wave] }

/-- Records a write; fails with the wave it races with, a writer before a reader. -/
def write (a : Accesses) (epoch : Nat) (wave : Int64) : Except Int64 Accesses :=
  match a.otherWriter? epoch wave with
  | some w => .error w
  | none =>
    match a.otherReader? epoch wave with
    | some r => .error r
    | none => .ok { a with lastWrite := some (epoch, wave) }

end Accesses

/-- The accesses of one group. -/
structure RaceLog where
  epoch : Nat := 0
  cells : Std.ExtTreeMap Location Accesses Location.order := {}

namespace RaceLog

def nextEpoch (log : RaceLog) : RaceLog := { log with epoch := log.epoch + 1 }

def record (log : RaceLog) (l : Location) (wave : Int64) (isWrite : Bool) : Except Int64 RaceLog :=
  let a := log.cells.getD l {}
  (if isWrite then a.write log.epoch wave else a.read log.epoch wave).map fun a =>
    { log with cells := log.cells.insert l a }

end RaceLog
end SegKernel
