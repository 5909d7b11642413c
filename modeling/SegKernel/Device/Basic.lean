import SegKernel.Device.Group

/-! A device with its memory and bound scalars, and the launch of programs on it. Groups run one
    after another; within a group all threads take turns in the order of the schedule. -/

namespace SegKernel

/-- The order in which the threads of a group take their turns. -/
inductive Schedule
  | forward
  | reverse
deriving DecidableEq

/-- All threads of a group in the order of their turns. -/
def Schedule.order (schedule : Schedule) (groupSize : Nat) : List Nat :=
  match schedule with
  | forward => List.range groupSize
  | reverse => (List.range groupSize).reverse

structure Device where
  /-- The number of threads of a wave; less than one counts as one. -/
  wave : Int64
  schedule : Schedule := .forward
  loopLimit : Nat := 1 <<< 20
  checkRaces : Bool := false
  scalars : Table Value := {}
  global : Memory := {}

namespace Device

/-! ### The host's access to the device -/

def bindScalar (d : Device) (name : Ident) (v : Value) : Device :=
  { d with scalars := d.scalars.insert name v }

/-- Stores an array whose elements are known to be of its type. -/
def place (d : Device) (name : Ident) (type : ScalarType) (values : List Value) : Device :=
  { d with global := d.global.insert name (.ofValues type values) }

/-- Stores an array, if all elements are of its type. -/
def upload (d : Device) (name : Ident) (type : ScalarType) (values : List Value) : Except Fault Device :=
  match values.find? (·.type ≠ type) with
  | some v => .error (.typeMismatch (.uploaded type v.type))
  | none => .ok (d.place name type values)

def download (d : Device) (name : Ident) : Except Fault (List Value) :=
  match d.global[name]? with
  | some b => .ok b.values
  | none => .error (.unknownArray name)

/-- The elements of an array, if all are of the wanted type. -/
def downloadAs (d : Device) (name : Ident) (type : ScalarType) : Except Fault (List Value) := do
  let values ← d.download name
  match values.find? (·.type ≠ type) with
  | some v => .error (.typeMismatch (.downloaded name v.type type))
  | none => .ok values

/-! ### Launching -/

/-- The constants that the kernels of a program carry with them. -/
def constants (p : Program) : List (Ident × Value) :=
  p.kernels.flatMap fun k => k.captures.filterMap fun
    | .constant name v => some (name, v)
    | _ => none

/-- The variables of host expressions: bound scalars, the defaults of tuning parameters that are not
    bound, and the constants of all kernels, which hide the others. -/
def hostEnv (d : Device) (p : Program) : Table Value :=
  let tuned := p.tuning.foldl (fun env t => env.insertIfNew t.name (.i64 t.default)) d.scalars
  (constants p).foldl (fun env c => env.insert c.1 c.2) tuned

/-- The memory and the statistics while a program runs. -/
structure Progress where
  global : Memory
  stats : LaunchStats := {}

abbrev Launch := EStateM Fault Progress

def allocate (host : Scope) (a : Allocation) : Launch Unit := fun s =>
  match a.length.evalInt host >>= arrayLength a.name with
  | .ok n => .ok () { s with global := s.global.insert a.name (.zeroed a.type n) }
  | .error fault => .error fault s

/-- Adds to `env` what one use of a kernel takes from the host. -/
def capture (host : Scope) (global : Memory) (env : Table Value) :
    Capture → Except Fault (Table Value)
  | .scalar name type =>
    match host name with
    | some v => if v.type = type then .ok (env.insert name v) else .error (.typeMismatch (.captured name type v.type))
    | none => .error (.unboundUse name)
  | .memory name => if global.contains name then .ok env else .error (.unboundUse name)
  | .constant name v => .ok (env.insert name v)

/-- Runs the body of a kernel by one group. -/
def runGroup (ctx : GroupContext) (schedule : Schedule) (body : Stmt) : Launch Unit := fun s =>
  let size := ctx.groupSize.toInt.toNat
  let start : GroupState :=
    { threads := Array.replicate size {}, global := s.global, stats := s.stats }
  match Run.exec ctx body (schedule.order size) start with
  | .ok _ t => .ok () ⟨t.global, t.stats⟩
  | .error fault t => .error fault ⟨t.global, t.stats⟩

/-- Runs the groups `first`, `first + 1`, ..., `count` in all. -/
def runGroups (ctx : GroupContext) (schedule : Schedule) (body : Stmt) : (count first : Nat) → Launch Unit
  | 0, _ => pure ()
  | n + 1, g => do
    runGroup { ctx with group := Int64.ofNat g } schedule body
    runGroups ctx schedule body n (g + 1)

/-- What a kernel is launched with. -/
def context (d : Device) (host : Scope) (global : Memory) (k : Kernel) : Except Fault GroupContext := do
  let captured ← k.captures.foldlM (capture host global) {}
  let numGroups ← k.numGroups.evalInt host
  let groupSize ← k.groupSize.evalInt host
  if numGroups.toInt < 0 ∨ groupSize.toInt ≤ 0 then throw (.invalidLaunch k.name numGroups groupSize)
  return {
    captured, groupSize, numGroups
    group := 0
    wave := max d.wave 1
    loopLimit := d.loopLimit
    checkRaces := d.checkRaces }

def runKernel (d : Device) (host : Scope) (k : Kernel) : Launch Unit := do
  let ctx ← fun s => match d.context host s.global k with
    | .ok ctx => .ok ctx s
    | .error fault => .error fault s
  runGroups ctx d.schedule k.body ctx.numGroups.toInt.toNat 0
  modify fun s => { s with stats := { s.stats with kernels := s.stats.kernels + 1 } }

def runProgram (d : Device) (p : Program) : Launch Unit := do
  let env := d.hostEnv p
  p.allocations.forM (allocate (env[·]?))
  p.kernels.forM (d.runKernel (env[·]?))

/-- Allocates the arrays of a program and launches its kernels in order. The device keeps the memory
    that was reached, also after a fault. -/
def run (d : Device) (p : Program) : Except Fault LaunchStats × Device :=
  match d.runProgram p { global := d.global } with
  | .ok _ s => (.ok s.stats, { d with global := s.global })
  | .error fault s => (.error fault, { d with global := s.global })

end Device
end SegKernel
