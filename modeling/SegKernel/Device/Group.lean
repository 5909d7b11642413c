import SegKernel.Device.Memory
import SegKernel.Device.Race
import SegKernel.Exp.Eval

/-! Execution of kernel code by one group of threads. Every statement is executed by all active
    threads, one after another, before the next statement starts. A set of active threads is the list
    of their ids in the order in which they take their turns; a statement without active threads does
    nothing. A run that stops with a fault leaves the state that it had reached. -/

namespace SegKernel

/-- What one thread owns. -/
structure Thread where
  scalars : Table Value := {}
  arrays : Memory := {}

structure LaunchStats where
  kernels : Nat := 0
  barriers : Nat := 0
  atomics : Nat := 0
deriving DecidableEq

/-- The place of a group in its launch, and what it takes from the host. -/
structure GroupContext where
  captured : Table Value
  group : Int64
  groupSize : Int64
  numGroups : Int64
  /-- The number of threads of a wave. -/
  wave : Int64
  loopLimit : Nat
  checkRaces : Bool

structure GroupState where
  threads : Array Thread
  shared : Memory := {}
  global : Memory
  races : RaceLog := {}
  stats : LaunchStats

/-- A step of a group. -/
abbrev Run := EStateM Fault GroupState

namespace GroupState

/-- The variables that a thread sees: its own, and what the kernel takes from the host. -/
def scope (ctx : GroupContext) (s : GroupState) (t : Nat) : Scope := fun name =>
  match (s.threads.getD t {}).scalars[name]? with
  | some v => some v
  | none => ctx.captured[name]?

def modifyThread (s : GroupState) (t : Nat) (f : Thread → Thread) : GroupState :=
  { s with threads := s.threads.modify t f }

/-- Gives a scalar of a thread a value, declaring it if need be. -/
def bind (s : GroupState) (t : Nat) (name : Ident) (v : Value) : GroupState :=
  s.modifyThread t fun th => { th with scalars := th.scalars.insert name v }

def buffer? (s : GroupState) (t : Nat) (view : View) : Option Buffer :=
  match view.space with
  | .global => s.global[view.array]?
  | .shared => s.shared[view.array]?
  | .thread => (s.threads.getD t {}).arrays[view.array]?

def modifyBuffer (s : GroupState) (t : Nat) (view : View) (f : Buffer → Buffer) : GroupState :=
  match view.space with
  | .global => { s with global := s.global.modify view.array f }
  | .shared => { s with shared := s.shared.modify view.array f }
  | .thread => s.modifyThread t fun th => { th with arrays := th.arrays.modify view.array f }

/-- A shared array that exists already is kept as it is; an array of a thread starts anew. -/
def declareShared (s : GroupState) (name : Ident) (type : ScalarType) (length : Nat) : GroupState :=
  if s.shared.contains name then s
  else { s with shared := s.shared.insert name (.zeroed type length) }

def declareOwn (s : GroupState) (t : Nat) (name : Ident) (type : ScalarType) (length : Nat) : GroupState :=
  s.modifyThread t fun th => { th with arrays := th.arrays.insert name (.zeroed type length) }

def countBarrier (s : GroupState) : GroupState :=
  { s with races := s.races.nextEpoch, stats := { s.stats with barriers := s.stats.barriers + 1 } }

def countAtomic (s : GroupState) : GroupState :=
  { s with stats := { s.stats with atomics := s.stats.atomics + 1 } }

end GroupState

namespace Run

/-- Evaluates in the current state. -/
def evaluate {α : Type} (f : GroupState → Except Fault α) : Run α := fun s =>
  match f s with
  | .ok a => .ok a s
  | .error fault => .error fault s

variable (ctx : GroupContext) (t : Nat)

def value (x : Exp) : Run Value := evaluate fun s => x.eval (s.scope ctx t)
def int (x : Exp) : Run Int64 := evaluate fun s => x.evalInt (s.scope ctx t)
def condition (x : Exp) : Run Bool := evaluate fun s => x.evalBool (s.scope ctx t)

/-- Checks that a thread may assign a value to one of its scalars. -/
def assignable (s : GroupState) (t : Nat) (name : Ident) (v : Value) : Except Fault Unit :=
  match (s.threads.getD t {}).scalars[name]? with
  | some old => if old.type = v.type then .ok () else .error (.typeMismatch (.assigned name old.type v.type))
  | none => .error (.unknownVariable name)

/-- Assigns to a declared scalar of the same type. -/
def assign (name : Ident) (v : Value) : Run Unit := do
  evaluate fun s => assignable s t name v
  modify fun s => s.bind t name v

def load (view : View) (index : Int64) : Run Value :=
  evaluate fun s =>
    match s.buffer? t view with
    | some b => b.load view index
    | none => .error (.unknownArray view.array)

/-- The position at which a thread may store a value. -/
def storable (s : GroupState) (t : Nat) (view : View) (index : Int64) (v : Value) : Except Fault Nat :=
  if v.type ≠ view.type then .error (.typeMismatch (.stored view.array view.type v.type))
  else
    match s.buffer? t view with
    | some b => b.position view index
    | none => .error (.unknownArray view.array)

def store (view : View) (index : Int64) (v : Value) : Run Unit := do
  let i ← evaluate fun s => storable s t view index v
  modify fun s => s.modifyBuffer t view (·.put i v.toBits)

/-- Records an access to memory that waves share. -/
def track (view : View) (index : Int64) (isWrite : Bool) : Run Unit := fun s =>
  if ctx.checkRaces ∧ view.space ≠ .thread then
    let wave := Int64.ofNat t / ctx.wave
    match s.races.record ⟨view.space, view.array, index⟩ wave isWrite with
    | .ok races => .ok () { s with races }
    | .error other => .error (.dataRace view.array index other wave) s
  else .ok () s

/-- Declares an array for a thread. -/
def declareArray (name : Ident) (type : ScalarType) (length : Exp) (space : Space) : Run Unit := do
  let n ← int ctx t length
  let n ← evaluate fun _ => arrayLength name n
  match space with
  | .shared => modify fun s => s.declareShared name type n
  | .thread => modify fun s => s.declareOwn t name type n
  | .global => throw (.typeMismatch (.globalDeclaration name))

def answer (which : Query) : Int64 :=
  match which with
  | .globalId => ctx.group * ctx.groupSize + Int64.ofNat t
  | .localId => Int64.ofNat t
  | .groupId => ctx.group
  | .localSize => ctx.groupSize
  | .numGroups => ctx.numGroups
  | .lockstepWidth => ctx.wave

/-- The new contents of an element that held `current`. -/
def combine (op : AtomicOp) (current v : Value) : Except Fault Value :=
  match op with
  | .exchange => .ok v
  | .add => Value.binary .add current v
  | .min => Value.binary .min current v
  | .max => Value.binary .max current v
  | .and => Value.binary .and current v
  | .or => Value.binary .or current v
  | .xor => Value.binary .xor current v

def update (op : AtomicOp) (old : Ident) (view : View) (index value : Exp) : Run Unit := do
  let i ← int ctx t index
  let v ← Run.value ctx t value
  let current ← load t view i
  let new ← evaluate fun _ => combine op current v
  store t view i new
  assign t old current
  modify GroupState.countAtomic

def compareSwap (old : Ident) (view : View) (index expected desired : Exp) : Run Unit := do
  let i ← int ctx t index
  let expected ← value ctx t expected
  let desired ← value ctx t desired
  if expected.type ≠ view.type then throw (.typeMismatch (.comparand view.type expected.type))
  let current ← load t view i
  if current = expected then store t view i desired
  assign t old current
  modify GroupState.countAtomic

/-! ### Statements -/

/-- Runs `body` for `first`, `first + 1`, ..., `count` times in all. -/
def countUp (body : Nat → Run Unit) : (count first : Nat) → Run Unit
  | 0, _ => pure ()
  | n + 1, k => do
    body k
    countUp body n (k + 1)

/-- Runs `body` for the threads that pass `test`, until none does, at most `limit` times. -/
def whileLive (test : List Nat → Run (List Nat)) (body : List Nat → Run Unit) : (limit : Nat) → List Nat → Run Unit
  | 0, live => do
    let live ← test live
    if live.isEmpty then pure () else throw .loopLimit
  | n + 1, live => do
    let live ← test live
    if live.isEmpty then pure ()
    else
      body live
      whileLive test body n live

/-- The result of a question to each thread. -/
def ask {α : Type} (active : List Nat) (question : Nat → Run α) : Run (List (Nat × α)) :=
  active.mapM fun t => return (t, ← question t)

/-- The threads whose answers satisfy `p`. -/
def those {α : Type} (answers : List (Nat × α)) (p : α → Bool) : List Nat :=
  (answers.filter (p ·.2)).map (·.1)

/-- How often a loop runs whose threads have the given bounds. -/
def trips (bounds : List (Nat × Int64)) : Nat := bounds.foldl (fun n b => max n b.2.toInt.toNat) 0

mutual

/-- Executes a statement with the given active threads. -/
def exec (ctx : GroupContext) (stmt : Stmt) (active : List Nat) : Run Unit :=
  if active.isEmpty then pure ()
  else
    match stmt with
    | .skip => pure ()
    | .seq stmts => execAll ctx stmts active
    | .comment _ body => exec ctx body active
    | .declare name type _ => active.forM fun t => modify fun s => s.bind t name (.zero type)
    | .declareArray name type length space => active.forM fun t => declareArray ctx t name type length space
    | .set name x =>
      active.forM fun t => do
        let v ← value ctx t x
        assign t name v
    | .read dest view index =>
      active.forM fun t => do
        let i ← int ctx t index
        let v ← load t view i
        track ctx t view i false
        assign t dest v
    | .write view index x =>
      active.forM fun t => do
        let i ← int ctx t index
        let v ← value ctx t x
        store t view i v
        track ctx t view i true
    | .branch c ifTrue ifFalse => do
      let answers ← ask active fun t => condition ctx t c
      exec ctx ifTrue (those answers id)
      exec ctx ifFalse (those answers not)
    | .loop iter bound body => do
      let bounds ← ask active fun t => int ctx t bound
      let count := trips bounds
      if ctx.loopLimit < count then throw .loopLimit
      countUp (fun k => do
        let inner := those bounds fun b => k < b.toInt
        inner.forM fun t => modify fun s => s.bind t iter (.i64 (Int64.ofNat k))
        exec ctx body inner) count 0
    | .repeatWhile c body =>
      whileLive (fun live => return those (← ask live fun t => condition ctx t c) id)
        (fun live => exec ctx body live) ctx.loopLimit active
    | .query which dest =>
      active.forM fun t => modify fun s => s.bind t dest (.i64 (answer ctx t which))
    | .barrier _ => modify GroupState.countBarrier
    | .memFence _ => pure ()
    | .update op old view index x => active.forM fun t => update ctx t op old view index x
    | .compareSwap old view index expected desired =>
      active.forM fun t => compareSwap ctx t old view index expected desired

/-- Executes statements one after another. -/
def execAll (ctx : GroupContext) (stmts : List Stmt) (active : List Nat) : Run Unit :=
  match stmts with
  | [] => pure ()
  | s :: ss => do
    exec ctx s active
    execAll ctx ss active

end
end Run
end SegKernel
