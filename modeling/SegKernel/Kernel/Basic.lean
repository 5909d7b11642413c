import SegKernel.Exp.Basic

/-! Kernel code: scalar assignments, typed accesses to memory, structured control flow, and the
    operations by which the threads of a group cooperate. A program is what a host runs: arrays to
    allocate, sizes that can be tuned, and kernels to launch one after another. -/

namespace SegKernel

/-- Where an array lives: once on the device, once for each group, or once for each thread. -/
inductive Space
  | global
  | shared
  | thread
deriving DecidableEq

/-- The memory that a barrier or a fence orders. -/
inductive Fence
  | shared
  | global
deriving DecidableEq

/-- An array seen as a sequence of elements of a type. -/
structure View where
  array : Ident
  type : ScalarType
  space : Space
  volatile : Bool := false
deriving DecidableEq

/-- What a thread can ask about its place in the launch. -/
inductive Query
  | globalId
  | localId
  | groupId
  | localSize
  | numGroups
  | lockstepWidth
deriving DecidableEq

/-- The read-modify-write operations that devices offer. -/
inductive AtomicOp
  | add
  | min
  | max
  | and
  | or
  | xor
  | exchange
deriving DecidableEq

inductive Stmt
  | skip
  | seq (stmts : List Stmt)
  | comment (text : String) (body : Stmt)
  | declare (name : Ident) (type : ScalarType) (volatile : Bool)
  | declareArray (name : Ident) (type : ScalarType) (length : Exp) (space : Space)
  | set (name : Ident) (value : Exp)
  | read (dest : Ident) (view : View) (index : Exp)
  | write (view : View) (index value : Exp)
  | branch (condition : Exp) (ifTrue ifFalse : Stmt)
  /-- Runs the body for `iter` from zero up to, not including, `bound`. -/
  | loop (iter : Ident) (bound : Exp) (body : Stmt)
  | repeatWhile (condition : Exp) (body : Stmt)
  | query (which : Query) (dest : Ident)
  | barrier (fence : Fence)
  | memFence (fence : Fence)
  /-- Combines a value into an element; `old` receives what the element held before. -/
  | update (op : AtomicOp) (old : Ident) (view : View) (index value : Exp)
  /-- Stores `desired` if the element holds `expected`; `old` receives what it held before. -/
  | compareSwap (old : Ident) (view : View) (index expected desired : Exp)

namespace Stmt

/-- The statements that a statement contributes to a sequence. -/
def pieces : Stmt → List Stmt
  | skip => []
  | seq stmts => stmts
  | s => [s]

/-- Runs statements one after another, without nested sequences and empty statements. -/
def block (stmts : List Stmt) : Stmt :=
  match stmts.flatMap pieces with
  | [] => skip
  | [s] => s
  | flat => seq flat

/-- Declares a scalar and gives it its first value. -/
def declareInit (name : Ident) (type : ScalarType) (value : Exp) : Stmt :=
  seq [declare name type false, set name value]

def when (condition : Exp) (body : Stmt) : Stmt :=
  match condition.bool? with
  | some true => body
  | some false => skip
  | none => branch condition body skip

def whenNot (condition : Exp) (body : Stmt) : Stmt := when condition.negation body

end Stmt

/-- What a kernel takes from the host. -/
inductive Capture
  | scalar (name : Ident) (type : ScalarType)
  | memory (name : Ident)
  | constant (name : Ident) (value : Value)
deriving DecidableEq

/-- A kernel with its launch size, given by expressions over host scalars. A failure tolerant kernel
    can be stopped and run again. -/
structure Kernel where
  name : String
  body : Stmt
  captures : List Capture
  numGroups : Exp
  groupSize : Exp
  failureTolerant : Bool

/-- An array that the host allocates, filled with zeros, before the kernels run. -/
structure Allocation where
  name : Ident
  type : ScalarType
  length : Exp
deriving DecidableEq

/-- A size that the host may choose; it has a default. -/
structure TuningParam where
  name : Ident
  default : Int64
deriving DecidableEq

structure Program where
  allocations : List Allocation := []
  tuning : List TuningParam := []
  kernels : List Kernel := []

namespace Program

/-- Adds the parameters whose names are not taken yet. -/
def addTuning (params : List TuningParam) (new : List TuningParam) : List TuningParam :=
  new.foldl (fun params p => if params.any (·.name == p.name) then params else params ++ [p]) params

/-- The program that does what `p` does and then what `q` does. -/
def append (p q : Program) : Program where
  allocations := p.allocations ++ q.allocations
  tuning := addTuning p.tuning q.tuning
  kernels := p.kernels ++ q.kernels

instance : Append Program := ⟨append⟩

end Program
end SegKernel
