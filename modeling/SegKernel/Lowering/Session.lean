import SegKernel.Config
import SegKernel.Kernel.Fresh
import SegKernel.Kernel.Hoist
import SegKernel.Lowering.Error

/-! The state in which a module is lowered: the program made so far and the names taken. A kernel is
    finished here, when its body is complete. -/

namespace SegKernel

/-- An array that code can access, and its extents. -/
structure ArrayInfo where
  view : View
  shape : List Exp

def ArrayInfo.length (a : ArrayInfo) : Exp := .product a.shape

/-- What stays the same while a module is lowered. -/
structure Setting where
  config : Config
  env : HostEnv

structure Session where
  /-- The number of names taken. -/
  names : Nat := 0
  program : Program := {}
  /-- Whether the kernel in the making writes to places that its body computes. -/
  scatters : Bool := false

/-- The global array of a name: one of the host, or one that the program allocates. -/
def globalArray? (env : HostEnv) (program : Program) (name : Ident) : Option ArrayInfo :=
  match env.arrays[name]? with
  | some (type, shape) => some ⟨⟨name, type, .global, false⟩, shape.map Operand.toExp⟩
  | none => (program.allocations.find? (·.name == name)).map fun a => ⟨⟨name, a.type, .global, false⟩, [a.length]⟩

/-- How a kernel gets a scalar that it does not declare. -/
def scalarCapture? (env : HostEnv) (program : Program) (name : Ident) : Option Capture :=
  match env.constants[name]?, env.scalars[name]? with
  | some v, _ => some (.constant name v)
  | none, some type => some (.scalar name type)
  | none, none => if program.tuning.any (·.name == name) then some (.scalar name .i64) else none

abbrev Lowering := ReaderT Setting (StateT Session (Except LowerError))

namespace Lowering

instance : MonadLift Fresh Lowering where
  monadLift f := fun _ session =>
    let (a, names) := f.run session.names
    .ok (a, { session with names })

instance : MonadLift (ExceptT LowerError Fresh) Lowering where
  monadLift f := fun _ session =>
    match f.run.run session.names with
    | (.ok a, names) => .ok (a, { session with names })
    | (.error e, _) => .error e

def limitation {α : Type} (cause : Limitation) (span : Option Span) : Lowering α := throw (.limitation cause span)
def defect {α : Type} (cause : Defect) (span : Option Span) : Lowering α := throw (.defect cause span)

/-- The value of an option; without one, a descriptor contradicts itself. -/
def require {α : Type} (a? : Option α) (cause : Defect) (span : Option Span) : Lowering α :=
  match a? with
  | some a => pure a
  | none => defect cause span

/-- Goes on only if a condition holds; otherwise a descriptor contradicts itself. -/
def check (condition : Bool) (cause : Defect) (span : Option Span) : Lowering Unit :=
  if condition then pure () else defect cause span

/-- Elements are taken of a list that has some. Where it has fewer, lowering breaks off. -/
def inRange (taken available : Nat) : Lowering Unit :=
  if taken ≤ available then pure () else throw (.outOfRange taken available)

def globalArray? (name : Ident) : Lowering (Option ArrayInfo) := do
  return SegKernel.globalArray? (← read).env (← get).program name

/-- The global array of a name; `place` says who asks for it. -/
def globalArray (name : Ident) (place : String) (span : Option Span) : Lowering ArrayInfo := do
  require (← globalArray? name) (.unknownArray name place) span

/-- Lets the program allocate an array. -/
def allocate (stem : String) (type : ScalarType) (length : Exp) : Lowering View := do
  let name ← fresh stem
  modify fun s =>
    { s with program := { s.program with allocations := s.program.allocations ++ [⟨name, type, length⟩] } }
  return ⟨name, type, .global, false⟩

def addTuning (param : TuningParam) : Lowering Unit :=
  modify fun s => { s with program := { s.program with tuning := Program.addTuning s.program.tuning [param] } }

def markScatter : Lowering Unit := modify fun s => { s with scatters := true }

/-- How a kernel gets the names that its body does not declare: first the scalars, then the arrays. -/
def captures (kernel : String) (body : Stmt) : Lowering (List Capture) := do
  let env := (← read).env
  let program := (← get).program
  let scalars ← body.freeScalars.mapM fun name =>
    require (scalarCapture? env program name) (.undeclaredScalar name kernel) none
  let memory ← body.freeMemory.mapM fun name => do
    check (SegKernel.globalArray? env program name).isSome (.undeclaredMemory name kernel) none
    return Capture.memory name
  return scalars ++ memory

/-- Finishes a kernel and adds it to the program. -/
def emitKernel (stem : String) (numGroups groupSize : Exp) (body : Stmt) : Lowering Unit := do
  let name ← fresh stem
  let body ← match body.hoist with
    | .ok body => pure body
    | .error late => limitation (.lateLength late.array name late.dependence) none
  let captures ← captures name body
  modify fun s =>
    let failureTolerant := !body.usesAtomics && !s.scatters
    let kernel : Kernel := { name, body, captures, numGroups, groupSize, failureTolerant }
    { s with program := { s.program with kernels := s.program.kernels ++ [kernel] }, scatters := false }

end Lowering
end SegKernel
