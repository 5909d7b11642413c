import SegKernel.Scalar.Basic

/-! New names. A new name is a stem and a number that no other new name has. -/

namespace SegKernel

/-- A computation that takes new names; its state is the number of names taken so far. -/
def Fresh (α : Type) : Type := StateM Nat α

namespace Fresh

instance : Monad Fresh := inferInstanceAs (Monad (StateM Nat))
instance : LawfulMonad Fresh := inferInstanceAs (LawfulMonad (StateM Nat))

/-- Runs a computation after `n` names were taken. -/
def run {α : Type} (f : Fresh α) (n : Nat) : α × Nat := StateT.run f n

@[simp] theorem run_pure {α : Type} (a : α) (n : Nat) : (pure a : Fresh α).run n = (a, n) := rfl

@[simp] theorem run_bind {α β : Type} (f : Fresh α) (g : α → Fresh β) (n : Nat) :
    (f >>= g).run n = (g (f.run n).1).run (f.run n).2 := rfl

end Fresh

/-- The name of a stem and a number. -/
def numbered (stem : String) (n : Nat) : Ident := stem ++ "_" ++ toString n

/-- Takes a new name. -/
def fresh (stem : String) : Fresh Ident := fun n => (numbered stem n, n + 1)

/-- Takes a new name for each element of a list. -/
def freshFor {α : Type} (stem : String) : List α → Fresh (List Ident)
  | [] => pure []
  | _ :: as => do
    let name ← fresh stem
    return name :: (← freshFor stem as)

@[simp] theorem run_fresh (stem : String) (n : Nat) : (fresh stem).run n = (numbered stem n, n + 1) := rfl

end SegKernel
